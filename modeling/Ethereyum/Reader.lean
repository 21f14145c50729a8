/-
# `Reader` — the read loop of a socket, message by message

The socket worker polls the transport (`WebSocketStream::poll` in `tcp.rs`),
decodes each message and dispatches what it decodes to.  Three questions about it.

* Does it survive every message?  `handle_message` calls `unreachable!` on
  control frames, which the transport does hand over, so it survives exactly the
  sequences without them (`survives_iff`).
* Does one bad output of a batch response harm the others?  `handle_response`
  collects the outputs into one `Result`, so an output with an id that is no
  number takes the whole batch with it (`unpoisoned_iff`).
* Does it matter in which kind of frame a message comes?  The two decoders are
  written twice, and only the one for text tries the notification
  (`text_binary_iff`).
-/
import Ethereyum.Lib.Hex
import Ethereyum.Tables

namespace Ethereyum

/-! ## The transport -/

/-- `tungstenite::protocol::Message`. -/
inductive Message where
  | text (s : String)
  | binary (b : List UInt8)
  | ping (b : List UInt8)
  | pong (b : List UInt8)

/-- A `Ping` or a `Pong`. -/
def Message.isControl : Message → Bool
  | .ping _ => true
  | .pong _ => true
  | _ => false

/-- `tungstenite::Error`, by what `to_async` makes of it. -/
inductive WsError where
  | wouldBlock
  | other
  deriving DecidableEq

/-- `ToAsync::to_async`. -/
def toAsync {α : Type} : Except WsError α → Except WsError (Async α)
  | .ok x => .ok (.ready x)
  | .error .wouldBlock => .ok .notReady
  | .error .other => .error .other

/-- `WebSocketStream::poll`, given what `read_message` returned. -/
def webSocketPoll (read : Except WsError Message) : Except WsError (Async (Option Message)) :=
  toAsync (read.map some)

/-! ## The loop -/

section
variable (C : Codec)

/-- `handle_message`; `none` is its `unreachable!`. -/
def handleMessage : Message → Option (Except Error (List RpcResponse))
  | .text response => some (handleTextMessage C response)
  | .binary response => some (handleBinaryMessage C response)
  | .ping _ => none
  | .pong _ => none

/-- The body of `read_stream`'s `for_each`, once the message is decoded. -/
def Client.dispatch (c : Client) : Except Error (List RpcResponse) → Client
  | .ok rpcResult => c.readFrame rpcResult
  | .error _ => c

/-- What a decoded message dispatches. -/
def dispatched : Except Error (List RpcResponse) → List RpcResponse
  | .ok rpcResult => rpcResult
  | .error _ => []

/-- `read_stream`, on what `read_message` returns poll by poll: the responses it
dispatched and the tables it left.  It ends with an error of the transport, and
`none` is a panic. -/
def readStream : Client → List (Except WsError Message) → Option (List RpcResponse × Client)
  | c, [] => some ([], c)
  | c, read :: reads =>
      match webSocketPoll read with
      | .error _ => some ([], c)
      | .ok .notReady => readStream c reads
      | .ok (.ready none) => some ([], c)
      | .ok (.ready (some msg)) =>
          match handleMessage C msg with
          | none => none
          | some decoded =>
              (readStream (c.dispatch decoded) reads).map fun r => (dispatched decoded ++ r.1, r.2)

/-- The decoded list of a message that decodes, and nothing for one that does not. -/
def decodedList (msg : Message) : List RpcResponse :=
  match handleMessage C msg with
  | some decoded => dispatched decoded
  | none => []

end

variable {C : Codec} {c : Client} {msgs : List Message} {reads : List (Except WsError Message)}

theorem dispatch_eq (decoded : Except Error (List RpcResponse)) :
    c.dispatch decoded = c.readFrame (dispatched decoded) := by
  cases decoded with
  | ok rs => rfl
  | error e => rfl

theorem handleMessage_eq_none {msg : Message} :
    handleMessage C msg = none ↔ msg.isControl = true := by
  cases msg <;> simp [handleMessage, Message.isControl]

/-- A text frame on its own is what `readText` does. -/
theorem dispatch_text (text : String) :
    c.dispatch (handleTextMessage C text) = c.readText C text := by
  unfold Client.readText
  cases handleTextMessage C text with
  | ok rs => rfl
  | error e => rfl

/-! ## Which sequences it survives -/

/-- The transport hands over `msgs`, and nothing to read in between. -/
def Delivers (reads : List (Except WsError Message)) (msgs : List Message) : Prop :=
  reads.filter (fun r => match r with | .error .wouldBlock => false | _ => true) = msgs.map .ok

/-- The loop consumes the whole sequence, however it is spread over polls, and
dispatches the concatenation of what its messages decode to; one that does not
decode might as well not be there. -/
structure Survives (C : Codec) (c : Client) (msgs : List Message) : Prop where
  consumed : ∀ reads, Delivers reads msgs → readStream C c reads =
    some (msgs.flatMap (decodedList C), c.readFrame (msgs.flatMap (decodedList C)))
  undecoded : ∀ pre msg post e, msgs = pre ++ msg :: post →
    handleMessage C msg = some (.error e) → ∀ reads reads', Delivers reads msgs →
    Delivers reads' (pre ++ post) → readStream C c reads = readStream C c reads'

theorem delivers_map (msgs : List Message) : Delivers (msgs.map .ok) msgs := by
  refine List.filter_eq_self.mpr ?_
  intro r hr
  obtain ⟨msg, _, rfl⟩ := List.mem_map.mp hr
  rfl

/-- What one poll of the transport delivers. -/
theorem delivers_cons {read : Except WsError Message} (h : Delivers (read :: reads) msgs) :
    (read = .error .wouldBlock ∧ Delivers reads msgs) ∨
    ∃ msg rest, read = .ok msg ∧ msgs = msg :: rest ∧ Delivers reads rest := by
  cases read with
  | error e =>
      cases e with
      | wouldBlock => exact Or.inl ⟨rfl, h⟩
      | other =>
          have hmem : Except.error WsError.other ∈ msgs.map Except.ok := by
            rw [← h]
            exact List.mem_cons_self
          obtain ⟨_, _, heq⟩ := List.mem_map.mp hmem
          cases heq
  | ok msg =>
      cases msgs with
      | nil => cases h
      | cons msg' rest =>
          obtain ⟨hhead, htail⟩ := List.cons.inj h
          cases hhead
          exact Or.inr ⟨msg, rest, rfl, rfl, htail⟩

/-- Without control frames the loop goes through. -/
theorem readStream_eq (hmsgs : ∀ msg ∈ msgs, msg.isControl = false) (h : Delivers reads msgs) :
    readStream C c reads =
      some (msgs.flatMap (decodedList C), c.readFrame (msgs.flatMap (decodedList C))) := by
  induction reads generalizing c msgs with
  | nil =>
      have hnil : msgs = [] := List.map_eq_nil_iff.mp h.symm
      subst hnil
      rfl
  | cons read reads ih =>
      rcases delivers_cons h with ⟨rfl, hrest⟩ | ⟨msg, rest, rfl, rfl, hrest⟩
      · exact ih hmsgs hrest
      · have hmsg := hmsgs msg List.mem_cons_self
        obtain ⟨decoded, hdecoded⟩ : ∃ decoded, handleMessage C msg = some decoded := by
          refine Option.ne_none_iff_exists'.mp ?_
          intro hnone
          rw [handleMessage_eq_none, hmsg] at hnone
          cases hnone
        have hlist : decodedList C msg = dispatched decoded := by
          rw [decodedList, hdecoded]
        have hloop := ih (c := c.dispatch decoded)
          (fun m hm => hmsgs m (List.mem_cons_of_mem _ hm)) hrest
        simp only [readStream, webSocketPoll, toAsync, Except.map, hdecoded, hloop,
          Option.map_some, List.flatMap_cons, hlist, Client.readFrame_append, ← dispatch_eq]

/-- A control frame is not got over. -/
theorem readStream_eq_none (h : Delivers reads msgs) {msg : Message} (hmem : msg ∈ msgs)
    (hmsg : msg.isControl = true) : readStream C c reads = none := by
  induction reads generalizing c msgs with
  | nil =>
      have hnil : msgs = [] := List.map_eq_nil_iff.mp h.symm
      rw [hnil] at hmem
      exact absurd hmem List.not_mem_nil
  | cons read reads ih =>
      rcases delivers_cons h with ⟨rfl, hrest⟩ | ⟨first, rest, rfl, rfl, hrest⟩
      · exact ih hrest hmem
      · cases hdecoded : handleMessage C first with
        | none => simp only [readStream, webSocketPoll, toAsync, Except.map, hdecoded]
        | some decoded =>
            have hlater : msg ∈ rest := by
              rcases List.mem_cons.mp hmem with rfl | hlater
              · rw [handleMessage_eq_none.mpr hmsg] at hdecoded
                cases hdecoded
              · exact hlater
            have hloop := ih (c := c.dispatch decoded) hrest hlater
            simp only [readStream, webSocketPoll, toAsync, Except.map, hdecoded, hloop,
              Option.map_none]

/-- **The read loop survives a sequence of messages exactly when none of them is a
`Ping` or a `Pong`.** -/
theorem survives_iff (C : Codec) (c : Client) (msgs : List Message) :
    Survives C c msgs ↔ ∀ msg ∈ msgs, msg.isControl = false := by
  constructor
  · intro h msg hmem
    cases hmsg : msg.isControl with
    | false => rfl
    | true =>
        have hconsumed := h.consumed _ (delivers_map msgs)
        rw [readStream_eq_none (delivers_map msgs) hmem hmsg] at hconsumed
        cases hconsumed
  · intro hmsgs
    refine ⟨fun reads hreads => readStream_eq hmsgs hreads, ?_⟩
    rintro pre msg post e rfl hundecoded reads reads' hreads hreads'
    have hnothing : decodedList C msg = [] := by
      rw [decodedList, hundecoded]
      rfl
    have hrest : ∀ m ∈ pre ++ post, m.isControl = false := by
      intro m hm
      rcases List.mem_append.mp hm with hm | hm
      · exact hmsgs m (List.mem_append_left _ hm)
      · exact hmsgs m (List.mem_append_right _ (List.mem_cons_of_mem _ hm))
    rw [readStream_eq hmsgs hreads, readStream_eq hrest hreads']
    simp only [List.flatMap_append, List.flatMap_cons, hnothing, List.nil_append]

/-- A `Ping` of the server stops the reader. -/
theorem ping_not_survived : ¬ Survives Client.updateCodec Client.new [.ping []] := by
  intro h
  have hconsumed := h.consumed [.ok (.ping [])] rfl
  cases hconsumed

/-! ## Batch responses -/

/-- The id of an output, when it is a number. -/
def Output.number : Output → Option Nat
  | .success ⟨_, .num n⟩ => some n
  | .failure ⟨_, .num n⟩ => some n
  | _ => none

/-- The read loop on a message that parses to `resp`. -/
def Client.dispatchResponse (C : Codec) (c : Client) (resp : Response) : Client :=
  c.dispatch (handleResponse C resp)

theorem handleOutput_of_number {o : Output} {n : Nat} (h : o.number = some n) :
    ∃ r, handleOutput C o = .ok r ∧ r.requestId = some n := by
  cases o with
  | success s =>
      obtain ⟨result, id⟩ := s
      cases id with
      | num m => exact ⟨.success m result, rfl, h⟩
      | null => cases h
      | str t => cases h
  | failure f =>
      obtain ⟨error, id⟩ := f
      cases id with
      | num m => exact ⟨.failure m (.yumError error), rfl, h⟩
      | null => cases h
      | str t => cases h

theorem handleOutput_of_no_number {o : Output} (h : o.number = none) :
    ∃ e, handleOutput C o = .error e := by
  cases o with
  | success s =>
      obtain ⟨result, id⟩ := s
      cases id with
      | num m => cases h
      | null => exact ⟨_, rfl⟩
      | str t => exact ⟨_, rfl⟩
  | failure f =>
      obtain ⟨error, id⟩ := f
      cases id with
      | num m => cases h
      | null => exact ⟨_, rfl⟩
      | str t => exact ⟨_, rfl⟩

/-- What an output decodes to has its number. -/
theorem handleOutput_number {o : Output} {r : RpcResponse} (h : handleOutput C o = .ok r) :
    r.requestId = o.number := by
  cases hn : o.number with
  | some n =>
      obtain ⟨r', hr', hid⟩ := handleOutput_of_number (C := C) hn
      cases h.symm.trans hr'
      exact hid
  | none =>
      obtain ⟨e, he⟩ := handleOutput_of_no_number (C := C) hn
      cases h.symm.trans he

/-- A batch of numbered outputs decodes, output by output. -/
theorem handleResponse_numbered {os : List Output} (h : ∀ o ∈ os, o.number ≠ none) :
    ∃ rs, handleResponse C (.batch os) = .ok rs ∧ rs.map .ok = os.map (handleOutput C) := by
  induction os with
  | nil => exact ⟨[], rfl, rfl⟩
  | cons o os ih =>
      obtain ⟨n, hn⟩ := Option.ne_none_iff_exists'.mp (h o List.mem_cons_self)
      obtain ⟨r, hr, _⟩ := handleOutput_of_number (C := C) hn
      obtain ⟨rs, hrs, houtputs⟩ := ih fun o' ho' => h o' (List.mem_cons_of_mem _ ho')
      refine ⟨r :: rs, ?_, ?_⟩
      · simp only [handleResponse, handleBatchOutput] at hrs
        simp only [handleResponse, handleBatchOutput, List.map_cons, collect, hr, hrs]
      · rw [List.map_cons, List.map_cons, hr, houtputs]

/-- The outputs that come out of decoding are those that went in. -/
theorem mem_outputs {os : List Output} {rs : List RpcResponse}
    (h : rs.map .ok = os.map (handleOutput C)) {r : RpcResponse} (hr : r ∈ rs) :
    ∃ o ∈ os, r.requestId = o.number := by
  have hmem : .ok r ∈ os.map (handleOutput C) := by
    rw [← h]
    exact List.mem_map_of_mem hr
  obtain ⟨o, ho, hdecoded⟩ := List.mem_map.mp hmem
  exact ⟨o, ho, handleOutput_number hdecoded⟩

/-- A batch with an output without a number does not decode. -/
theorem handleResponse_unnumbered {os : List Output} {o : Output} (hmem : o ∈ os)
    (ho : o.number = none) : ∃ e, handleResponse C (.batch os) = .error e := by
  induction os with
  | nil => cases hmem
  | cons first os ih =>
      cases hfirst : handleOutput C first with
      | error e => exact ⟨e, by simp only [handleResponse, handleBatchOutput, List.map_cons,
          collect, hfirst]⟩
      | ok r =>
          have hlater : o ∈ os := by
            rcases List.mem_cons.mp hmem with rfl | hlater
            · obtain ⟨e, he⟩ := handleOutput_of_no_number (C := C) ho
              rw [he] at hfirst
              cases hfirst
            · exact hlater
          obtain ⟨e, he⟩ := ih hlater
          simp only [handleResponse, handleBatchOutput] at he
          exact ⟨e, by simp only [handleResponse, handleBatchOutput, List.map_cons, collect,
            hfirst, he]⟩

/-- The request `n`, and no other, waits on the oneshot `tx`. -/
structure Client.Awaits (c : Client) (n : Nat) (tx : Oneshot) : Prop where
  entry : c.pending.lookup n = some tx
  alone : ∀ m, c.pending.lookup m = some tx → m = n
  lt : tx < c.oneshots.length
  empty : c.oneshots.get tx = .empty

/-- Every pending request that a numbered output of the batch answers is completed, its oneshot is
told the first of these answers, and all is as if the other outputs were not there. -/
structure Unpoisoned (C : Codec) (c : Client) (os : List Output) : Prop where
  completed : ∀ o ∈ os, ∀ n, o.number = some n →
    (c.dispatchResponse C (.batch os)).pending.lookup n = none
  told : ∀ n tx o r, c.Awaits n tx → os.find? (fun o => o.number == some n) = some o →
    handleOutput C o = .ok r →
    (c.dispatchResponse C (.batch os)).oneshots.get tx = .sent r.intoResponse.2
  same : c.dispatchResponse C (.batch os) =
    c.dispatchResponse C (.batch (os.filter fun o => o.number.isSome))

/-- Answers to nobody change nothing. -/
theorem readFrame_unknown {rs : List RpcResponse}
    (h : ∀ r ∈ rs, ∃ n, r.requestId = some n ∧ c.pending.lookup n = none) :
    c.readFrame rs = c := by
  induction rs with
  | nil => rfl
  | cons r rs ih =>
      obtain ⟨n, hid, hnone⟩ := h r List.mem_cons_self
      have hskip : c.readOne r = c := (Client.answer_unknown hid hnone).1
      rw [Client.readFrame, List.foldl_cons, hskip]
      exact ih fun r' hr' => h r' (List.mem_cons_of_mem _ hr')

/-- After a frame with an answer to `n`, nothing is pending under `n`. -/
theorem readFrame_answered {rs : List RpcResponse} {n : Nat}
    (h : some n ∈ rs.map RpcResponse.requestId) : (c.readFrame rs).pending.lookup n = none := by
  induction rs generalizing c with
  | nil => cases h
  | cons r rs ih =>
      have hframe : c.readFrame (r :: rs) = (c.readOne r).readFrame rs := rfl
      rw [hframe]
      rcases List.mem_cons.mp h with hr | hrs
      · cases hlast : ((c.readOne r).readFrame rs).pending.lookup n with
        | none => rfl
        | some tx =>
            have hone := Client.readFrame_pending _ _ hlast
            rw [Client.readOne_pending_answered c hr.symm] at hone
            cases hone
      · exact ih hrs

section awaits
variable {n : Nat} {tx : Oneshot} {r : RpcResponse}

/-- An answer to another request leaves the oneshot as it is. -/
theorem Client.Awaits.readOne (h : c.Awaits n tx) (hr : r.requestId ≠ some n) :
    (c.readOne r).Awaits n tx := by
  refine ⟨?_, ?_, ?_, ?_⟩
  · rw [Client.readOne_pending_of_ne c hr]
    exact h.entry
  · intro m hm
    exact h.alone m (Client.readOne_pending c hm)
  · rw [Client.readOne_oneshots_length]
    exact h.lt
  · cases r with
    | subscription s v => simpa [Client.readOne] using h.empty
    | success m v =>
        have hother : c.pending.lookup m ≠ some tx := fun hm => hr (congrArg some (h.alone m hm))
        exact (Client.complete_oneshots c m _ hother).trans h.empty
    | failure m e =>
        have hother : c.pending.lookup m ≠ some tx := fun hm => hr (congrArg some (h.alone m hm))
        exact (Client.complete_oneshots c m _ hother).trans h.empty

theorem Client.Awaits.readFrame (h : c.Awaits n tx) {rs : List RpcResponse}
    (hrs : ∀ r ∈ rs, r.requestId ≠ some n) : (c.readFrame rs).Awaits n tx := by
  induction rs generalizing c with
  | nil => exact h
  | cons r rs ih =>
      exact ih (h.readOne (hrs r List.mem_cons_self))
        fun r' hr' => hrs r' (List.mem_cons_of_mem _ hr')

theorem Client.Awaits.answered (h : c.Awaits n tx) (hr : r.requestId = some n) :
    (c.readOne r).oneshots.get tx = .sent r.intoResponse.2 := by
  obtain ⟨hsub, rfl⟩ := RpcResponse.requestId_eq_some.mp hr
  rw [Client.readOne_eq_httpOne c hsub, Client.httpOne, Client.complete_of_some _ h.entry]
  exact Oneshots.get_send_self _ h.lt h.empty

theorem readFrame_written (rs : List RpcResponse) (h : c.oneshots.get tx ≠ .empty) :
    (c.readFrame rs).oneshots.get tx = c.oneshots.get tx := by
  induction rs generalizing c with
  | nil => rfl
  | cons r rs ih =>
      have hone := Client.readOne_written c r h
      exact (ih (by rwa [hone])).trans hone

/-- The first answer to the request is what its oneshot is told. -/
theorem Client.Awaits.told (h : c.Awaits n tx) {pre post : List RpcResponse}
    (hpre : ∀ r ∈ pre, r.requestId ≠ some n) (hr : r.requestId = some n) :
    (c.readFrame (pre ++ r :: post)).oneshots.get tx = .sent r.intoResponse.2 := by
  have hone := (h.readFrame hpre).answered hr
  have hframe : c.readFrame (pre ++ r :: post) = ((c.readFrame pre).readOne r).readFrame post :=
    Client.readFrame_append c pre (r :: post)
  rw [hframe, readFrame_written post (by simp [hone]), hone]

/-- The first output under a number decodes to the first response to it. -/
theorem told_of_find {os : List Output} {rs : List RpcResponse} {o : Output}
    (houtputs : rs.map .ok = os.map (handleOutput C)) (h : c.Awaits n tx)
    (hfind : os.find? (fun o => o.number == some n) = some o) (hr : handleOutput C o = .ok r) :
    (c.readFrame rs).oneshots.get tx = .sent r.intoResponse.2 := by
  obtain ⟨hnumber, pre, post, rfl, hpre⟩ := List.find?_eq_some_iff_append.mp hfind
  rw [List.map_append, List.map_cons, hr] at houtputs
  obtain ⟨pre', rest, rfl, houtputs', hrest⟩ := List.map_eq_append_iff.mp houtputs
  obtain ⟨r', post', rfl, heq, _⟩ := List.map_eq_cons_iff.mp hrest
  obtain rfl : r' = r := Except.ok.inj heq
  refine h.told ?_ ((handleOutput_number hr).trans (by simpa using hnumber))
  intro p hp hid
  obtain ⟨o', ho', hsame⟩ := mem_outputs houtputs' hp
  have hnot := hpre o' ho'
  rw [← hsame, hid] at hnot
  simp at hnot

end awaits

/-- **A batch response is not poisoned exactly when all its outputs have numbers, or
none of the numbered ones answers a pending request.** -/
theorem unpoisoned_iff (C : Codec) (c : Client) (os : List Output) :
    Unpoisoned C c os ↔ (∀ o ∈ os, o.number ≠ none) ∨
      ∀ o ∈ os, ∀ n, o.number = some n → c.pending.lookup n = none := by
  have hrejected : ∀ {o}, o ∈ os → o.number = none → c.dispatchResponse C (.batch os) = c := by
    intro o hmem ho
    obtain ⟨e, he⟩ := handleResponse_unnumbered (C := C) hmem ho
    rw [Client.dispatchResponse, he]
    rfl
  constructor
  · intro h
    by_contra hneither
    obtain ⟨hnot, hpending⟩ := not_or.mp hneither
    obtain ⟨bad, hbad, hnone⟩ : ∃ o ∈ os, o.number = none := by
      by_contra hall
      exact hnot fun o ho hnone => hall ⟨o, ho, hnone⟩
    refine hpending ?_
    intro o ho n hn
    have hdone := h.completed o ho n hn
    rwa [hrejected hbad hnone] at hdone
  · intro h
    by_cases hall : ∀ o ∈ os, o.number ≠ none
    · obtain ⟨rs, hrs, houtputs⟩ := handleResponse_numbered (C := C) hall
      have hfilter : (os.filter fun o => o.number.isSome) = os :=
        List.filter_eq_self.mpr fun o ho => Option.isSome_iff_ne_none.mpr (hall o ho)
      refine ⟨?_, ?_, by rw [hfilter]⟩
      · intro o ho n hn
        rw [Client.dispatchResponse, hrs]
        refine readFrame_answered ?_
        obtain ⟨r, hr, hid⟩ := handleOutput_of_number (C := C) hn
        have hmem := List.mem_map_of_mem (f := handleOutput C) ho
        rw [← houtputs, hr] at hmem
        obtain ⟨r', hr', heq⟩ := List.mem_map.mp hmem
        obtain rfl : r' = r := Except.ok.inj heq
        exact List.mem_map.mpr ⟨r', hr', hid⟩
      · intro n tx o r hawaits hfind hr
        rw [Client.dispatchResponse, hrs]
        exact told_of_find houtputs hawaits hfind hr
    · have hunknown := h.resolve_left hall
      obtain ⟨bad, hbad, hnone⟩ : ∃ o ∈ os, o.number = none := by
        by_contra hno
        exact hall fun o ho hnone => hno ⟨o, ho, hnone⟩
      refine ⟨?_, ?_, ?_⟩
      · intro o ho n hn
        rw [hrejected hbad hnone]
        exact hunknown o ho n hn
      · intro n tx o r hawaits hfind hr
        have hnumber : o.number = some n := by simpa using List.find?_some hfind
        have hnot := hunknown o (List.mem_of_find?_eq_some hfind) n hnumber
        cases hawaits.entry.symm.trans hnot
      · have hsome : ∀ o ∈ os.filter (fun o => o.number.isSome), o.number ≠ none :=
          fun o ho => Option.isSome_iff_ne_none.mp (List.mem_filter.mp ho).2
        obtain ⟨rs, hrs, houtputs⟩ := handleResponse_numbered (C := C) hsome
        rw [hrejected hbad hnone, Client.dispatchResponse, hrs]
        refine (readFrame_unknown ?_).symm
        intro r hr
        obtain ⟨o, ho, hid⟩ := mem_outputs houtputs hr
        obtain ⟨n, hnum⟩ := Option.ne_none_iff_exists'.mp (hsome o ho)
        exact ⟨n, hid.trans hnum, hunknown o (List.mem_filter.mp ho).1 n hnum⟩

/-- An output without an id keeps the answer next to it from request 1. -/
theorem null_id_poisons : ¬ Unpoisoned Client.updateCodec Client.oneInFlight
    [.failure ⟨"Invalid request", .null⟩, .success ⟨.string "0x4dfbff", .num 1⟩] := by
  intro h
  have hdone := h.completed (.success ⟨.string "0x4dfbff", .num 1⟩)
    (List.mem_cons_of_mem _ List.mem_cons_self) 1 rfl
  exact absurd hdone (by decide)

/-! ## Text and binary frames -/

/-- Both decoders fail, or both give the same list. -/
def SameDecoding (a b : Option (Except Error (List RpcResponse))) : Prop :=
  (∃ e e', a = some (.error e) ∧ b = some (.error e')) ∨
  ∃ rs, a = some (.ok rs) ∧ b = some (.ok rs)

theorem not_sameDecoding {rs : List RpcResponse} {e : Error} :
    ¬ SameDecoding (some (.ok rs)) (some (.error e)) := by
  rintro (⟨_, _, ha, _⟩ | ⟨_, _, hb⟩)
  · cases ha
  · cases hb

/-- **A text and its bytes decode alike exactly when the text is a response or is no
notification.**  `from_str` and `from_slice` read the same responses. -/
theorem text_binary_iff
    (hserde : ∀ text resp, C.sliceResponse (Hex.utf8 text.toList) = .ok resp ↔
      C.textResponse text = .ok resp) (text : String) :
    SameDecoding (handleMessage C (.text text))
        (handleMessage C (.binary (Hex.utf8 text.toList))) ↔
      (∃ resp, C.textResponse text = .ok resp) ∨
      ∀ sub, fromStrNotification C text ≠ .ok sub := by
  simp only [handleMessage]
  cases htext : C.textResponse text with
  | ok resp =>
      have hslice := (hserde text resp).mpr htext
      have hsame : handleBinaryMessage C (Hex.utf8 text.toList) = handleTextMessage C text := by
        simp only [handleBinaryMessage, handleTextMessage, hslice, htext, Except.bind]
      refine iff_of_true ?_ (Or.inl ⟨resp, rfl⟩)
      rw [hsame]
      cases handleTextMessage C text with
      | error e => exact Or.inl ⟨e, e, rfl, rfl⟩
      | ok rs => exact Or.inr ⟨rs, rfl, rfl⟩
  | error e =>
      obtain ⟨e', hbinary⟩ : ∃ e', handleBinaryMessage C (Hex.utf8 text.toList) = .error e' := by
        cases hslice : C.sliceResponse (Hex.utf8 text.toList) with
        | ok resp =>
            rw [(hserde text resp).mp hslice] at htext
            cases htext
        | error e' => exact ⟨e', by simp only [handleBinaryMessage, hslice, Except.bind]⟩
      rw [hbinary]
      cases hnote : fromStrNotification C text with
      | error e'' =>
          refine iff_of_true (Or.inl ⟨e'', e', ?_, rfl⟩) (Or.inr fun sub hsub => by cases hsub)
          simp only [handleTextMessage, htext, hnote]
      | ok sub =>
          refine iff_of_false ?_ ?_
          · simp only [handleTextMessage, htext, hnote]
            exact not_sameDecoding
          · rintro (⟨_, hresp⟩ | hnone)
            · cases hresp
            · exact hnone sub rfl

/-- A parser of slices that reads them as texts. -/
def utf8Codec (C : Codec) : Codec :=
  { C with sliceResponse := fun binary =>
      match Hex.fromUtf8 binary with
      | some text => C.textResponse text
      | none => .error .json }

theorem utf8Codec_slice (C : Codec) (text : String) :
    (utf8Codec C).sliceResponse (Hex.utf8 text.toList) = (utf8Codec C).textResponse text := by
  have htext : Hex.fromUtf8 (Hex.utf8 text.toList) = some text := Hex.fromUtf8_eq_some_iff.mpr rfl
  simp only [utf8Codec, htext]

/-- A parser that reads every text as the answer 42 to request 1. -/
def answerCodec : Codec :=
  utf8Codec { Client.updateCodec with
    textResponse := fun _ => .ok (.single (.success ⟨.string "0x2a", .num 1⟩)) }

/-- The answer 42 to request 1. -/
def answerText : String := "\x7b\"jsonrpc\":\"2.0\",\"result\":\"0x2a\",\"id\":1\x7d"

/-- An answer may come in either kind of frame. -/
theorem answer_same : SameDecoding (handleMessage answerCodec (.text answerText))
    (handleMessage answerCodec (.binary (Hex.utf8 answerText.toList))) :=
  (text_binary_iff (fun text resp => by rw [answerCodec, utf8Codec_slice]) answerText).mpr
    (Or.inl ⟨_, rfl⟩)

/-- A notification of subscription 1. -/
def notificationText : String :=
  "\x7b\"method\":\"parity_subscription\",\"params\":\x7b\"subscription\":\"0x1\",\"result\":\"0x4dfbff\"\x7d\x7d"

/-- A notification in a binary frame is lost, though the parsers of texts and slices
agree. -/
theorem notification_differs :
    (∀ text, (utf8Codec Client.updateCodec).sliceResponse (Hex.utf8 text.toList) =
      (utf8Codec Client.updateCodec).textResponse text) ∧
    ¬ SameDecoding (handleMessage (utf8Codec Client.updateCodec) (.text notificationText))
      (handleMessage (utf8Codec Client.updateCodec) (.binary (Hex.utf8 notificationText.toList))) := by
  refine ⟨utf8Codec_slice Client.updateCodec, ?_⟩
  have hslice := utf8Codec_slice Client.updateCodec notificationText
  have hbinary : handleMessage (utf8Codec Client.updateCodec)
      (.binary (Hex.utf8 notificationText.toList)) = some (.error .json) := by
    simp only [handleMessage, handleBinaryMessage, hslice]
    rfl
  rw [hbinary]
  exact not_sameDecoding

end Ethereyum
