/-
# `Batch` — a batch future returns its results in the order of the requests

`batch_request` gives the request at position `i` the oneshot `n + i` and the
id that goes with it, and keeps the receivers in order.  Answers may then come
in any order, in any number of frames, between other traffic of any kind, and
the future may be polled at any time: what a poll sees of position `i` is a
function of the slot `n + i` alone (`Watch.look`), and the slot of an answered
request holds the answer that carried its id (`Tracked`).

So every poll before the last answer is `NotReady`, and the first one after it
returns the decoded answers in the order of the requests.
-/
import Ethereyum.History

namespace Ethereyum

/-! ## One request of a batch -/

/-- Nothing but the output `success id v` answers `id`, and no sweep times it out. -/
def Event.Serves (id : Nat) (v : Value) : Event → Prop
  | .op (.frame rs) => ∀ r ∈ rs, r.requestId = some id → r = .success id v
  | .op (.body rs) => ∀ r ∈ rs, r.intoResponse.1 = id → r = .success id v
  | .op (.sweep now order) => id ∉ Client.expiredIds now order
  | _ => True

/-- None of these responses answers `id`. -/
def Unanswered (rs : List RpcResponse) (id : Nat) : Prop := ∀ r ∈ rs, r.requestId ≠ some id

/-- Where the request of `tx` stands after the responses `rs`: in `pending`, or
answered with `v`. -/
structure Tracked (rs : List RpcResponse) (c : Client) (tx : Oneshot) (v : Value) : Prop where
  waiting : Unanswered rs (idOf tx) → c.pending.lookup (idOf tx) = some tx
  answered : ¬ Unanswered rs (idOf tx) → c.oneshots.get tx = .sent (.ok v)

theorem unanswered_append {rs rs' : List RpcResponse} {id : Nat} :
    Unanswered (rs ++ rs') id ↔ Unanswered rs id ∧ Unanswered rs' id := by
  simp only [Unanswered, List.mem_append]
  constructor
  · exact fun h => ⟨fun r hr => h r (Or.inl hr), fun r hr => h r (Or.inr hr)⟩
  · rintro ⟨h, h'⟩ r (hr | hr)
    · exact h r hr
    · exact h' r hr

namespace Tracked
variable {rs : List RpcResponse} {c c' : Client} {tx : Oneshot} {v : Value}

/-- A step that answers nobody, leaves the entry alone and rewrites no slot. -/
theorem quiet (h : Tracked rs c tx v) {rs' : List RpcResponse} (hrs : Unanswered rs' (idOf tx))
    (hpending : c.pending.lookup (idOf tx) = some tx → c'.pending.lookup (idOf tx) = some tx)
    (hslot : c.oneshots.get tx ≠ .empty → c'.oneshots.get tx = c.oneshots.get tx) :
    Tracked (rs ++ rs') c' tx v where
  waiting hun := hpending (h.waiting (unanswered_append.mp hun).1)
  answered hun := by
    have hslot' := h.answered fun hrs₀ => hun (unanswered_append.mpr ⟨hrs₀, hrs⟩)
    rw [hslot (by rw [hslot']; simp), hslot']

/-- A completion under another id. -/
theorem complete_ne (h : Tracked rs c tx v) {rs' : List RpcResponse}
    (hrs : Unanswered rs' (idOf tx)) {id : Nat} (hid : id ≠ idOf tx) (rv : Except Error Value) :
    Tracked (rs ++ rs') (c.complete id rv).2 tx v := by
  refine h.quiet hrs ?_ fun hslot => Client.complete_written _ _ _ hslot
  intro hp
  rw [Client.complete_pending, if_neg (Ne.symm hid)]
  exact hp

/-- The answer. -/
theorem complete_self (h : Tracked rs c tx v) (hwf : c.Wellformed) :
    Tracked (rs ++ [.success (idOf tx) v]) (c.complete (idOf tx) (.ok v)).2 tx v where
  waiting hun := absurd rfl ((unanswered_append.mp hun).2 _ List.mem_cons_self)
  answered _ := by
    by_cases hun : Unanswered rs (idOf tx)
    · have hp := h.waiting hun
      obtain ⟨_, hlt, hempty⟩ := hwf.pending _ _ hp
      rw [Client.complete_of_some _ hp]
      exact Oneshots.get_send_self _ hlt hempty
    · have hslot := h.answered hun
      rw [Client.complete_written _ _ _ (by rw [hslot]; simp), hslot]

theorem readOne (h : Tracked rs c tx v) (hwf : c.Wellformed) {r : RpcResponse}
    (hr : r.requestId = some (idOf tx) → r = .success (idOf tx) v) :
    Tracked (rs ++ [r]) (c.readOne r) tx v := by
  by_cases hid : r.requestId = some (idOf tx)
  · rw [hr hid]
    exact h.complete_self hwf
  · have hun : Unanswered [r] (idOf tx) := fun r' hr' => List.mem_singleton.mp hr' ▸ hid
    cases r with
    | subscription s w =>
        exact h.quiet hun (fun hp => by simpa [Client.readOne] using hp)
          fun _ => by simp [Client.readOne]
    | success id w => exact h.complete_ne hun (fun heq => hid (congrArg some heq)) _
    | failure id e => exact h.complete_ne hun (fun heq => hid (congrArg some heq)) _

theorem httpOne (h : Tracked rs c tx v) (hwf : c.Wellformed) {r : RpcResponse}
    (hr : r.intoResponse.1 = idOf tx → r = .success (idOf tx) v) :
    Tracked (rs ++ [r]) (c.httpOne r) tx v := by
  by_cases hid : r.intoResponse.1 = idOf tx
  · rw [hr hid]
    exact h.complete_self hwf
  · refine h.complete_ne (fun r' hr' hreq => hid ?_) hid _
    rw [List.mem_singleton.mp hr'] at hreq
    exact (RpcResponse.requestId_eq_some.mp hreq).2

/-- A dispatch loop tracks what each of its turns tracks. -/
theorem loop {turn : Client → RpcResponse → Client} {rs' : List RpcResponse}
    (hwf' : ∀ c r, c.Wellformed → (turn c r).Wellformed)
    (hturn : ∀ r ∈ rs', ∀ rs c, Tracked rs c tx v → c.Wellformed →
      Tracked (rs ++ [r]) (turn c r) tx v)
    (h : Tracked rs c tx v) (hwf : c.Wellformed) : Tracked (rs ++ rs') (rs'.foldl turn c) tx v := by
  induction rs' generalizing rs c with
  | nil => simpa using h
  | cons r rs' ih =>
      have hrest := ih (fun r' hr' => hturn r' (List.mem_cons_of_mem _ hr'))
        (hturn r List.mem_cons_self rs c h hwf) (hwf' c r hwf)
      simpa using hrest

theorem timeOut (h : Tracked rs c tx v) {ids : List Nat} (hids : idOf tx ∉ ids) :
    ∀ removed, Tracked rs (ids.foldl Client.timeOut (removed, c)).2 tx v := by
  induction ids generalizing c with
  | nil => exact fun _ => h
  | cons id ids ih =>
      intro removed
      rw [List.mem_cons, not_or] at hids
      obtain ⟨hid, hids⟩ := hids
      have hone : Tracked rs (Client.timeOut (removed, c) id).2 tx v := by
        have hnone : Unanswered [] (idOf tx) := fun _ hr => nomatch hr
        rw [Client.timeOut_snd]
        simpa using h.complete_ne hnone (Ne.symm hid) _
      exact ih hone hids _

/-- Another registration, less than a turn of the counter later. -/
theorem register (h : Tracked rs c tx v) (hwf : c.Wellformed) (hlt : tx < c.oneshots.length)
    (hturn : c.oneshots.length < tx + word) : Tracked rs c.register tx v := by
  have hne : idOf tx ≠ c.ids := by
    rw [hwf.ids]
    exact (idOf_ne hlt hturn).symm
  have hquiet : Tracked (rs ++ []) c.register tx v := by
    refine h.quiet (fun _ hr => nomatch hr) ?_ fun hslot =>
      Client.register_written c hslot
    intro hp
    rw [Client.register_pending, lookup_insert_iff, if_neg hne]
    exact hp
  simpa using hquiet

theorem iterate_register (h : Tracked rs c tx v) (hwf : c.Wellformed)
    (hlt : tx < c.oneshots.length) {n : Nat} (hturn : c.oneshots.length + n ≤ tx + word) :
    Tracked rs (Client.register^[n] c) tx v := by
  induction n with
  | zero => exact h
  | succ n ih =>
      rw [Function.iterate_succ_apply']
      refine (ih (Nat.le_of_succ_le hturn)).register (hwf.iterate_register n) ?_ ?_
      · rw [Client.iterate_register_oneshots_length]
        exact Nat.lt_add_right n hlt
      · rw [Client.iterate_register_oneshots_length]
        exact hturn

/-- A registration tracks its own request. -/
theorem of_register (hwf : c.Wellformed) (v : Value) :
    Tracked [] c.register c.oneshots.length v where
  waiting _ := by
    rw [Client.register_pending, hwf.ids, AList.lookup_insert]
  answered hun := absurd (fun _ hr => nomatch hr) hun

/-- Every operation of the client keeps track. -/
theorem step {C : Codec} {op : Op} {o : List Registration} (h : Tracked rs c tx v)
    (hwf : c.Wellformed) (hstep : (history C).step c op = some (o, c'))
    (hserve : Event.Serves (idOf tx) v (.op op)) (hlt : tx < c.oneshots.length)
    (hturn : c'.oneshots.length ≤ tx + word) :
    Tracked (rs ++ Event.responses (.op op)) c' tx v := by
  have hnone : Unanswered [] (idOf tx) := fun _ hr => nomatch hr
  cases op with
  | request method params now =>
      cases hstep
      rw [Client.request_oneshots_length] at hturn
      rw [Client.request_client]
      exact (h.register hwf hlt hturn).quiet hnone (fun hp => hp) fun _ => rfl
  | batchRequest requests now =>
      cases hstep
      have hclient : (c.batchRequest requests true).2.oneshots =
          (Client.register^[requests.length] c).oneshots := by
        rw [← Client.registerBatch_client]
        rfl
      rw [hclient, Client.iterate_register_oneshots_length] at hturn
      have hregister := h.iterate_register hwf hlt hturn
      rw [← Client.registerBatch_client] at hregister
      exact hregister.quiet hnone (fun hp => hp) fun _ => rfl
  | frame rs' =>
      cases hstep
      exact h.loop (fun _ r hc => hc.readOne r)
        (fun r hr _ _ ht hc => ht.readOne hc (hserve r hr)) hwf
  | body rs' =>
      cases hstep
      exact h.loop (fun _ _ hc => hc.complete _ _)
        (fun r hr _ _ ht hc => ht.httpOne hc (hserve r hr)) hwf
  | sweep now order =>
      simp only [history] at hstep
      split at hstep
      · cases hstep
        exact (h.timeOut hserve []).quiet hnone (fun hp => hp) fun _ => rfl
      · cases hstep
  | channel =>
      cases hstep
      exact h.quiet hnone (fun hp => hp) fun _ => rfl
  | addSubscription id ch =>
      simp only [history] at hstep
      split at hstep
      · cases hstep
        exact h.quiet hnone (fun hp => by simpa using hp) fun _ => by simp
      · cases hstep

end Tracked

/-! ## The joined futures -/

/-- A position of a batch: its receiver, its decoder, the answer it is going to
get and what that decodes to. -/
structure Watch (α : Type) where
  tx : Oneshot
  de : Value → Except Error α
  v : Value
  t : α

namespace Watch
variable {α : Type}

/-- The future at this position. -/
def future (w : Watch α) : YumFuture α := .waitingFn w.tx w.de

/-- What a poll that reads the slots `o` leaves at this position. -/
def look (o : Oneshots) (w : Watch α) : Elem α :=
  match o.get w.tx with
  | .sent _ => .done w.t
  | _ => .pending w.future

/-- The slot of a position is empty or holds the right answer. -/
structure Open (o : Oneshots) (w : Watch α) : Prop where
  decodes : w.de w.v = .ok w.t
  slot : o.get w.tx = .empty ∨ o.get w.tx = .sent (.ok w.v)

/-- What was read from slots that have not changed since they were written. -/
def Since (o o' : Oneshots) (w : Watch α) : Prop :=
  o.get w.tx = .empty ∨ o.get w.tx = o'.get w.tx

/-- A poll moves every position on to what the slots now say. -/
theorem scan_look {o o' : Oneshots} {ws : List (Watch α)} (hopen : ∀ w ∈ ws, w.Open o')
    (hsince : ∀ w ∈ ws, w.Since o o') :
    JoinAll.scan o' (ws.map (look o)) = .ok (ws.map (look o')) := by
  induction ws with
  | nil => rfl
  | cons w ws ih =>
      have hrest := ih (fun w' hw' => hopen w' (List.mem_cons_of_mem _ hw'))
        (fun w' hw' => hsince w' (List.mem_cons_of_mem _ hw'))
      obtain ⟨hdecodes, hslot⟩ := hopen w List.mem_cons_self
      have hpoll : JoinAll.scan o' (.pending w.future :: ws.map (look o)) =
          .ok (look o' w :: ws.map (look o')) := by
        rcases hslot with hempty | hsent
        · simp [JoinAll.scan, future, YumFuture.poll, YumFuture.pollWaiting_empty hempty, hrest,
            look, hempty, Except.map]
        · simp [JoinAll.scan, future, YumFuture.poll, YumFuture.pollWaiting_sent hsent hdecodes,
            hrest, look, hsent, Except.map]
      rw [List.map_cons, List.map_cons]
      rcases hsince w List.mem_cons_self with hunread | hread
      · have hlook : look o w = .pending w.future := by simp [look, hunread]
        rw [hlook, hpoll]
      · rcases hslot with hempty | hsent
        · have hlook : look o w = .pending w.future := by simp [look, hread, hempty]
          rw [hlook, hpoll]
        · have hlook : look o w = .done w.t := by simp [look, hread, hsent]
          have hlook' : look o' w = .done w.t := by simp [look, hsent]
          rw [hlook, hlook', JoinAll.scan, hrest]
          rfl

theorem values_look_of_sent {o : Oneshots} {ws : List (Watch α)}
    (h : ∀ w ∈ ws, o.get w.tx = .sent (.ok w.v)) :
    JoinAll.values (ws.map (look o)) = some (ws.map (·.t)) := by
  induction ws with
  | nil => rfl
  | cons w ws ih =>
      have hlook : look o w = .done w.t := by simp [look, h w List.mem_cons_self]
      rw [List.map_cons, hlook, JoinAll.values, ih fun w' hw' => h w' (List.mem_cons_of_mem _ hw')]
      rfl

theorem values_look_of_empty {o : Oneshots} {ws : List (Watch α)} {w : Watch α} (hw : w ∈ ws)
    (hempty : o.get w.tx = .empty) : JoinAll.values (ws.map (look o)) = none := by
  induction ws with
  | nil => cases hw
  | cons w' ws ih =>
      rcases List.mem_cons.mp hw with rfl | hw
      · have hlook : look o w = .pending w.future := by simp [look, hempty]
        rw [List.map_cons, hlook, JoinAll.values]
      · rw [List.map_cons]
        cases look o w' with
        | pending f => rfl
        | done t => rw [JoinAll.values, ih hw]; rfl

end Watch

/-- The batch future whose positions are `ws`, last polled at the slots `o`. -/
def YumBatchFuture.Shows {α : Type} (f : YumBatchFuture α) (ws : List (Watch α)) (o : Oneshots) :
    Prop :=
  f = .waiting (ws.map Watch.future) ∧ o = [] ∨ f = .polling (ws.map (Watch.look o))

namespace YumBatchFuture
variable {α : Type} {f : YumBatchFuture α} {ws : List (Watch α)} {o o' : Oneshots}

theorem Shows.poll_eq (h : f.Shows ws o) :
    f.poll o' = some (pollPolling o' (ws.map (Watch.look o))) := by
  rcases h with ⟨rfl, rfl⟩ | rfl
  · have hunread : Watch.look [] = fun w : Watch α => Elem.pending w.future :=
      funext fun w => by simp [Watch.look, Oneshots.get]
    simp [poll, joinAll, hunread, Function.comp_def]
  · rfl

/-- With a slot empty the future is not ready. -/
theorem Shows.poll_notReady (h : f.Shows ws o) (hopen : ∀ w ∈ ws, w.Open o')
    (hsince : ∀ w ∈ ws, w.Since o o') {w : Watch α} (hw : w ∈ ws)
    (hempty : o'.get w.tx = .empty) :
    f.poll o' = some (.ok .notReady, .polling (ws.map (Watch.look o'))) := by
  simp [h.poll_eq, pollPolling, JoinAll.poll, Watch.scan_look hopen hsince,
    Watch.values_look_of_empty hw hempty]

/-- With every slot written it returns the results in order. -/
theorem Shows.poll_ready (h : f.Shows ws o) (hopen : ∀ w ∈ ws, w.Open o')
    (hsince : ∀ w ∈ ws, w.Since o o') (hsent : ∀ w ∈ ws, o'.get w.tx = .sent (.ok w.v)) :
    f.poll o' = some (.ok (.ready (ws.map (·.t))), .done) := by
  simp [h.poll_eq, pollPolling, JoinAll.poll, Watch.scan_look hopen hsince,
    Watch.values_look_of_sent hsent]

end YumBatchFuture

/-! ## A batch in flight -/

section batch
variable {α : Type} {C : Codec} {c : Client} {requests : List (BatchItem α)}
  {v : Nat → Value} {ts : List α}

/-- A client and the future of a batch it sent. -/
def batchMachine (C : Codec) (α : Type) :
    Mealy (Client × YumBatchFuture α) Event (Option (Poll (List α))) :=
  beside C fun c f => (f.poll c.oneshots).map fun r => (r.1, c, r.2)

/-- The id of the request at position `i` of a batch sent from `c`. -/
def Client.batchId (c : Client) (i : Nat) : Nat := (c.ids + i) % word

theorem Client.Wellformed.batchId_eq (h : c.Wellformed) (i : Nat) :
    c.batchId i = idOf (c.oneshots.length + i) := by
  unfold Client.batchId
  rw [h.ids, idOf, idOf, Nat.mod_add_mod, Nat.add_right_comm]

/-- The answers `v` decode to `ts`, position by position. -/
def Decodes (requests : List (BatchItem α)) (v : Nat → Value) (ts : List α) : Prop :=
  (requests.mapIdx fun i item => item.de (v i)) = ts.map .ok

theorem Decodes.length_eq (h : Decodes requests v ts) : ts.length = requests.length := by
  have hlen := congrArg List.length h
  simpa using hlen.symm

theorem Decodes.de_eq (h : Decodes requests v ts) {i : Nat} {item : BatchItem α} {t : α}
    (hitem : requests[i]? = some item) (ht : ts[i]? = some t) : item.de (v i) = .ok t := by
  have hi := congrArg (fun l : List (Except Error α) => l[i]?) h
  simpa [hitem, ht] using hi

/-- The positions of a batch sent from `c`. -/
def watches (c : Client) (requests : List (BatchItem α)) (v : Nat → Value) (ts : List α) :
    List (Watch α) :=
  (requests.zip ts).mapIdx fun i p => ⟨c.oneshots.length + i, p.1.de, v i, p.2⟩

theorem mem_watches {w : Watch α} (hw : w ∈ watches c requests v ts) :
    ∃ (i : Nat) (item : BatchItem α) (t : α), requests[i]? = some item ∧ ts[i]? = some t ∧
      i < requests.length ∧ w = ⟨c.oneshots.length + i, item.de, v i, t⟩ := by
  obtain ⟨i, hi, rfl⟩ := List.mem_mapIdx.mp hw
  obtain ⟨hreq, hts⟩ := List.lt_length_left_of_zip hi, List.lt_length_right_of_zip hi
  refine ⟨i, requests[i], ts[i], List.getElem?_eq_getElem _, List.getElem?_eq_getElem _, hreq, ?_⟩
  rw [List.getElem_zip]

theorem exists_watch (c : Client) (h : Decodes requests v ts) {i : Nat}
    (hi : i < requests.length) :
    ∃ w ∈ watches c requests v ts, w.tx = c.oneshots.length + i := by
  have hzip : i < (requests.zip ts).length := by
    rw [List.length_zip, h.length_eq, Nat.min_self]
    exact hi
  exact ⟨_, List.mem_mapIdx.mpr ⟨i, hzip, rfl⟩, rfl⟩

theorem batchRequest_future (h : Decodes requests v ts) :
    (c.batchRequest requests true).1 = .waiting ((watches c requests v ts).map Watch.future) := by
  have hresponses := Client.registerBatch_responses requests c
  have hlen := h.length_eq
  simp only [Client.batchRequest, if_pos, hresponses]
  refine congrArg YumBatchFuture.waiting (List.ext_getElem ?_ ?_)
  · simp [watches, hlen]
  · intro i _ _
    simp [watches, Watch.future]

/-- What the watched answers decode to, in order. -/
theorem watches_results (c : Client) (h : Decodes requests v ts) :
    (watches c requests v ts).map (·.t) = ts := by
  have hlen := h.length_eq
  refine List.ext_getElem ?_ ?_
  · simp [watches, hlen]
  · intro i _ _
    simp [watches]

/-- Right after it was sent the batch is tracked, as far as the counter makes no
full turn. -/
theorem tracked_batchRequest (hwf : c.Wellformed) (hn : requests.length ≤ word) {i : Nat}
    (hi : i < requests.length) :
    Tracked [] (c.batchRequest requests true).2 (c.oneshots.length + i) (v i) := by
  have hsplit : requests.length = (requests.length - (i + 1)) + (i + 1) :=
    (Nat.sub_add_cancel hi).symm
  have hown : Tracked [] (Client.register^[i + 1] c) (c.oneshots.length + i) (v i) := by
    rw [Function.iterate_succ_apply']
    have htracked := Tracked.of_register (hwf.iterate_register i) (v i)
    rwa [Client.iterate_register_oneshots_length] at htracked
  have hrest : Tracked [] (Client.register^[requests.length] c) (c.oneshots.length + i) (v i) := by
    rw [hsplit, Function.iterate_add_apply]
    refine hown.iterate_register (hwf.iterate_register _) ?_ ?_
    · rw [Client.iterate_register_oneshots_length]
      exact Nat.lt_succ_self _
    · rw [Client.iterate_register_oneshots_length, Nat.add_assoc, Nat.add_comm (i + 1), ← hsplit,
        Nat.add_right_comm]
      exact Nat.le_trans (Nat.add_le_add_left hn _) (Nat.le_add_right _ i)
  rw [Client.batchRequest_client]
  exact ⟨hrest.waiting, hrest.answered⟩

/-- `call` is the result of sending a batch from a reachable client `c`, and `tr`
what happened since: at most a turn of the counter, every id of the batch answered
by its own `Success` output only, and every poll made while an answer was missing. -/
structure InFlight (C : Codec) (c : Client) (requests : List (BatchItem α))
    (call : YumBatchFuture α × Client) (v : Nat → Value)
    (tr : List (Event × Option (Poll (List α)))) (s : Client × YumBatchFuture α) : Prop where
  reachable : ∃ past, (history C).Run Client.new past c
  sent : call = c.batchRequest requests true
  run : (batchMachine C α).Run (call.2, call.1) tr s
  turn : s.1.oneshots.length ≤ c.oneshots.length + word
  served : ∀ i < requests.length, ∀ e ∈ tr, e.1.Serves (c.batchId i) (v i)
  missing : ∀ pre post o, tr = pre ++ (.poll, o) :: post →
    ∃ i < requests.length, Unanswered (responses pre) (c.batchId i)

/-- The invariant of a batch in flight. -/
structure BatchInv (c : Client) (requests : List (BatchItem α)) (v : Nat → Value) (ts : List α)
    (tr : List (Event × Option (Poll (List α)))) (s : Client × YumBatchFuture α) : Prop where
  wellformed : s.1.Wellformed
  length : c.oneshots.length + requests.length ≤ s.1.oneshots.length
  tracked : ∀ i < requests.length, Tracked (responses tr) s.1 (c.oneshots.length + i) (v i)
  shows : ∃ o, s.2.Shows (watches c requests v ts) o ∧
    ∀ w ∈ watches c requests v ts, w.Since o s.1.oneshots
  polls : ∀ o, (.poll, o) ∈ tr → o = some (.ok .notReady)

namespace BatchInv
variable {tr : List (Event × Option (Poll (List α)))} {s : Client} {f : YumBatchFuture α}

theorem empty_of_unanswered (h : BatchInv c requests v ts tr (s, f)) {i : Nat}
    (hi : i < requests.length) (hun : Unanswered (responses tr) (idOf (c.oneshots.length + i))) :
    s.oneshots.get (c.oneshots.length + i) = .empty :=
  (h.wellformed.pending _ _ ((h.tracked i hi).waiting hun)).2.2

theorem isOpen (h : BatchInv c requests v ts tr (s, f))
    (hde : Decodes requests v ts) :
    ∀ w ∈ watches c requests v ts, w.Open s.oneshots := by
  intro w hw
  obtain ⟨i, item, t, hitem, ht, hi, rfl⟩ := mem_watches hw
  refine ⟨hde.de_eq hitem ht, ?_⟩
  by_cases hun : Unanswered (responses tr) (idOf (c.oneshots.length + i))
  · exact Or.inl (h.empty_of_unanswered hi hun)
  · exact Or.inr ((h.tracked i hi).answered hun)

/-- A poll made while an answer is missing. -/
theorem poll_missing (h : BatchInv c requests v ts tr (s, f)) (hwf : c.Wellformed)
    (hde : Decodes requests v ts)
    (hmissing : ∃ i < requests.length, Unanswered (responses tr) (c.batchId i)) :
    f.poll s.oneshots = some (.ok .notReady,
      .polling ((watches c requests v ts).map (Watch.look s.oneshots))) := by
  obtain ⟨i, hi, hun⟩ := hmissing
  rw [hwf.batchId_eq] at hun
  obtain ⟨o, hshows, hsince⟩ := h.shows
  obtain ⟨w, hw, htx⟩ := exists_watch c hde hi
  exact hshows.poll_notReady (h.isOpen hde) hsince hw (htx ▸ h.empty_of_unanswered hi hun)

/-- A poll made when every answer has come. -/
theorem poll_complete (h : BatchInv c requests v ts tr (s, f)) (hwf : c.Wellformed)
    (hde : Decodes requests v ts)
    (hall : ∀ i < requests.length, ¬ Unanswered (responses tr) (c.batchId i)) :
    f.poll s.oneshots = some (.ok (.ready ts), .done) := by
  obtain ⟨o, hshows, hsince⟩ := h.shows
  have hsent : ∀ w ∈ watches c requests v ts, s.oneshots.get w.tx = .sent (.ok w.v) := by
    intro w hw
    obtain ⟨i, item, t, _, _, hi, rfl⟩ := mem_watches hw
    have hun := hall i hi
    rw [hwf.batchId_eq] at hun
    exact (h.tracked i hi).answered hun
  rw [hshows.poll_ready (h.isOpen hde) hsince hsent, watches_results c hde]

theorem start (hwf : c.Wellformed) (hde : Decodes requests v ts) (hn : requests.length ≤ word) :
    BatchInv c requests v ts [] ((c.batchRequest requests true).2, (c.batchRequest requests true).1)
    where
  wellformed := by
    rw [Client.batchRequest_client]
    exact (hwf.iterate_register _).congr rfl rfl rfl rfl rfl
  length := by
    rw [Client.batchRequest_client]
    exact (Client.iterate_register_oneshots_length _ c).ge
  tracked i hi := tracked_batchRequest hwf hn hi
  shows := by
    refine ⟨[], Or.inl ⟨batchRequest_future hde, rfl⟩, fun w _ => Or.inl ?_⟩
    simp [Oneshots.get]
  polls := by simp

/-- An operation of the client keeps the invariant. -/
theorem op (h : BatchInv c requests v ts tr (s, f)) (hwf : c.Wellformed) {op : Op}
    {o : List Registration} {s' : Client} (hstep : (history C).step s op = some (o, s'))
    (hserve : ∀ i < requests.length, Event.Serves (c.batchId i) (v i) (.op op))
    (hturn : s'.oneshots.length ≤ c.oneshots.length + word) :
    BatchInv c requests v ts (tr ++ [(.op op, none)]) (s', f) := by
  have htracked : ∀ i < requests.length,
      Tracked (responses (tr ++ [(.op op, none)])) s' (c.oneshots.length + i) (v i) := by
    intro i hi
    rw [responses_snoc]
    have hserve' := hserve i hi
    rw [hwf.batchId_eq] at hserve'
    refine (h.tracked i hi).step h.wellformed hstep hserve' ?_ ?_
    · exact Nat.lt_of_lt_of_le (Nat.add_lt_add_left hi _) h.length
    · rw [Nat.add_right_comm]
      exact Nat.le_add_right_of_le hturn
  have hwf' := h.wellformed.step hstep
  refine ⟨hwf', Nat.le_trans h.length (history_oneshots_mono hstep), htracked, ?_, ?_⟩
  · obtain ⟨o, hshows, hsince⟩ := h.shows
    refine ⟨o, hshows, ?_⟩
    intro w hw
    have hw' := hsince w hw
    obtain ⟨i, item, t, _, _, hi, rfl⟩ := mem_watches hw
    by_cases hun : Unanswered (responses tr) (idOf (c.oneshots.length + i))
    · have hempty := h.empty_of_unanswered hi hun
      exact Or.inl (hw'.elim id fun heq => heq.trans hempty)
    · have hsent := (h.tracked i hi).answered hun
      have hsent' := (htracked i hi).answered fun hun' => hun
        (unanswered_append.mp (responses_snoc tr (.op op) none ▸ hun')).1
      exact hw'.imp_right fun heq => heq.trans (hsent.trans hsent'.symm)
  · intro o ho
    exact h.polls o (by simpa using ho)

end BatchInv

/-- The invariant holds as long as the batch is in flight. -/
theorem InFlight.inv {call : YumBatchFuture α × Client}
    {tr : List (Event × Option (Poll (List α)))} {s : Client × YumBatchFuture α}
    (h : InFlight C c requests call v tr s) (hde : Decodes requests v ts) :
    BatchInv c requests v ts tr s := by
  obtain ⟨⟨past, hpast⟩, rfl, hrun, hturn, hserved, hmissing⟩ := h
  have hwf := Client.wellformed_of_run hpast
  induction hrun with
  | nil =>
      refine BatchInv.start hwf hde ?_
      simp only [Client.batchRequest_client] at hturn
      have hlen := Client.iterate_register_oneshots_length requests.length c
      exact Nat.le_of_add_le_add_left (hlen ▸ hturn)
  | @snoc tr s s' e o hrun hstep ih =>
      obtain ⟨s, f⟩ := s
      have hserved' : ∀ i < requests.length, ∀ e ∈ tr, e.1.Serves (c.batchId i) (v i) :=
        fun i hi e' he' => hserved i hi e' (List.mem_append_left _ he')
      have hmissing' : ∀ pre post o, tr = pre ++ (.poll, o) :: post →
          ∃ i < requests.length, Unanswered (responses pre) (c.batchId i) :=
        fun pre post o' htr => hmissing pre (post ++ [(e, o)]) o' (by simp [htr])
      cases e with
      | op op =>
          obtain ⟨⟨regs, s'⟩, hop, heq⟩ := Option.map_eq_some_iff.mp hstep
          cases heq
          have hprev := ih (Nat.le_trans (history_oneshots_mono hop) hturn) hserved' hmissing'
          refine hprev.op hwf hop ?_ hturn
          intro i hi
          exact hserved i hi _ (List.mem_append_right _ List.mem_cons_self)
      | poll =>
          obtain ⟨⟨p, s', f'⟩, hpoll, heq⟩ := Option.map_eq_some_iff.mp hstep
          cases heq
          obtain ⟨⟨p', f''⟩, hfut, heq⟩ := Option.map_eq_some_iff.mp hpoll
          cases heq
          have hprev := ih hturn hserved' hmissing'
          rw [hprev.poll_missing hwf hde (hmissing tr [] _ rfl)] at hfut
          cases hfut
          have hnothing : responses (tr ++ [(Event.poll, some (Except.ok Async.notReady))]) =
              responses tr := by
            rw [responses_snoc]
            exact List.append_nil _
          refine ⟨hprev.wellformed, hprev.length, ?_, ?_, ?_⟩
          · intro i hi
            rw [hnothing]
            exact hprev.tracked i hi
          · exact ⟨s.oneshots, Or.inr rfl, fun w _ => Or.inr rfl⟩
          · intro o' ho'
            rcases List.mem_append.mp ho' with ho' | ho'
            · exact hprev.polls o' ho'
            · cases List.mem_singleton.mp ho'
              rfl

/-- The batch went out under its ids, every poll so far found it unready, and the
next one finds it so while an answer is missing, and returns `ts` when none is. -/
structure Returns (c : Client) (requests : List (BatchItem α)) (call : YumBatchFuture α × Client)
    (ts : List α) (tr : List (Event × Option (Poll (List α)))) (s : Client × YumBatchFuture α) :
    Prop where
  sent : call.2.wire = c.wire ++ [.batch (requests.mapIdx fun i item =>
    buildRequest (c.batchId i) item.method item.params)]
  earlier : ∀ o, (.poll, o) ∈ tr → o = some (.ok .notReady)
  waiting : (∃ i < requests.length, Unanswered (responses tr) (c.batchId i)) →
    (s.2.poll s.1.oneshots).map Prod.fst = some (.ok .notReady)
  complete : (∀ i < requests.length, ¬ Unanswered (responses tr) (c.batchId i)) →
    (s.2.poll s.1.oneshots).map Prod.fst = some (.ok (.ready ts))

theorem InFlight.returns {call : YumBatchFuture α × Client}
    {tr : List (Event × Option (Poll (List α)))} {s : Client × YumBatchFuture α}
    (h : InFlight C c requests call v tr s) (hde : Decodes requests v ts) :
    Returns c requests call ts tr s := by
  obtain ⟨past, hpast⟩ := h.reachable
  have hwf := Client.wellformed_of_run hpast
  have hinv := h.inv hde
  obtain ⟨s, f⟩ := s
  refine ⟨?_, hinv.polls, ?_, ?_⟩
  · have hids : c.ids < word := by
      rw [hwf.ids]
      exact Nat.mod_lt _ (by decide)
    rw [h.sent, Client.batchRequest_client, Client.registerBatch_calls requests hids]
    exact congrArg (· ++ _) (Client.iterate_register_wire _ c)
  · intro hmissing
    rw [hinv.poll_missing hwf hde hmissing]
    rfl
  · intro hall
    rw [hinv.poll_complete hwf hde hall]
    rfl

end batch

/-! ## `classify_addresses` -/

section classify
variable {H160 : Type} (ser : H160 → Value)

end classify

/-- Two requests for code. -/
def twoCodes : List (BatchItem String) :=
  [⟨"eth_getCode", [.string "0x01"], deString⟩, ⟨"eth_getCode", [.string "0x02"], deString⟩]

end Ethereyum
