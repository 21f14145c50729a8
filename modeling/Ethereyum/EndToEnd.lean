/-
# `EndToEnd` — from a call to the socket, and back to its future

`Exchange` is about the tables of a client and takes it for granted that what they hand to `send`
is what a server answers.  `SocketThreads` is about the way of a text through the pool to a socket.
Here the two are one process:

    request, batch_request ──→ tables ──→ send ──→ deque ──→ mailbox ──→ socket ──→ peer
                                                        └──→ HTTP post ────────────→ peer
    future ←── oneshot ←── tables ←──────────── thread ←──────────────── socket ←── peer

A peer sees texts, and only those that were written or posted.  When it takes them for the requests
they are, and answers nothing else, then a future of the client is told what the peer answered to
its own call, after that call had reached it (`heard_end_to_end`): whatever becomes of the workers
and of their connections, and in whatever order calls, threads, sentinel and sweeper take their
turns.
-/
import Ethereyum.Exchange
import Ethereyum.SocketThreads

namespace Ethereyum

/-! ## The process -/

/-- A client with its tables, its workers, and what it posted over HTTP. -/
structure ClientProcess where
  tables : Client
  sockets : Sockets
  posted : List String

inductive ProcessEvent where
  /-- an operation on the tables; a request goes as far as its call of `send` -/
  | op (op : Op)
  /-- a call of `send` goes on, or the sentinel, or `stop`, or a thread -/
  | sockets (e : SocketsEvent)

/-- The message that an effect is about. -/
def PoolEffect.message : PoolEffect → Option String
  | .enqueued _ msg _ => some msg
  | .posted _ msg => some msg
  | _ => none

/-- The message that goes over HTTP with an effect. -/
def PoolEffect.postedText : PoolEffect → Option String
  | .posted _ msg => some msg
  | _ => none

namespace ClientProcess

/-- `send` is called with a text. -/
def enter (C : Codec) (n : Sockets) (msg : String) : Option Sockets :=
  ((Sockets.machine C).step n (.client (.send msg))).map Prod.snd

/-- What the thread dispatches in a step. -/
def heard (C : Codec) (n : Sockets) : SocketsEvent → List RpcResponse
  | .thread k e =>
      match n.threads[k]?.bind fun t => t.run C e with
      | some (.read rs, _) => rs
      | _ => []
  | _ => []

/-- The process as a machine; a response over HTTP is an operation of its own. -/
def machine (C : Codec) : Mealy ClientProcess ProcessEvent (Option PoolEffect) where
  step s
    | .op (.frame _) => none
    | .op op => do
        let (_, tables) ← (history C).step s.tables op
        let msgs := (tables.wire.drop s.tables.wire.length).map C.requestText
        let sockets ← msgs.foldlM (enter C) s.sockets
        some (none, { s with tables, sockets })
    | .sockets (.client (.send _)) => none
    | .sockets e => do
        let (o, sockets) ← (Sockets.machine C).step s.sockets e
        some (o, { tables := s.tables.readFrame (heard C s.sockets e), sockets,
                   posted := s.posted ++ (o.bind PoolEffect.postedText).toList })

/-- A client on connections that were just opened. -/
def start (workers : List SocketWorker) (count : Nat) : ClientProcess :=
  { tables := Client.new, sockets := Sockets.start workers count, posted := [] }

/-! ## The peer -/

/-- The texts that have left the process. -/
def received (s : ClientProcess) : List String :=
  s.sockets.threads.flatMap SocketThread.textsWritten ++ s.posted

/-- The calls that a peer makes of them. -/
def receivedCalls (decode : String → Option Request) (s : ClientProcess) : List MethodCall :=
  (s.received.filterMap decode).flatMap Request.calls

/-- What the peer answers to the calls that have reached it. -/
def answered (A : Server) (decode : String → Option Request) (s : ClientProcess) : Server :=
  fun call rv => A call rv ∧ call ∈ s.receivedCalls decode

/-- The peer reads the requests as they were meant, and every response answers a call that has
reached it. -/
structure HonestPeer (A : Server) (C : Codec) (decode : String → Option Request)
    (s : ClientProcess) (e : ProcessEvent) : Prop where
  reads : ∀ req ∈ s.tables.wire, decode (C.requestText req) = some req
  threads : ∀ se, e = .sockets se → ∀ r ∈ heard C s.sockets se, r.isSubscription = false →
    Answers A (s.receivedCalls decode) r.intoResponse.1 r.intoResponse.2
  bodies : ∀ rs, e = .op (.body rs) → ∀ r ∈ rs,
    Answers A (s.receivedCalls decode) r.intoResponse.1 r.intoResponse.2

end ClientProcess

/-! ## The messages of the pool -/

/-- The message that a call of `send` comes with. -/
def PoolEvent.enters : PoolEvent → List String
  | .send msg => [msg]
  | _ => []

namespace Pool

section messages
variable {p p' : Pool} {e : PoolEvent} {o : Option PoolEffect} {sockets : List SocketWorker}
  {sends : List Send}

theorem msg_set {i : Nat} {c c' : Send} (hc : p.sends[i]? = some c) (hmsg : c'.msg = c.msg) :
    (p.sends.set i c').map (·.msg) = p.sends.map (·.msg) := by
  obtain ⟨hlt, rfl⟩ := List.getElem?_eq_some_iff.mp hc
  have hlt' : i < (p.sends.map Send.msg).length := by simpa using hlt
  show (p.sends.set i c').map Send.msg = p.sends.map Send.msg
  rw [List.map_set, hmsg, ← List.getElem_map Send.msg (h := hlt'), List.set_getElem_self]

theorem message_of_call_none (h : o.bind PoolEffect.call = none) :
    o.bind PoolEffect.message = none := by
  cases o with
  | none => rfl
  | some effect => cases effect <;> first | rfl | cases h

/-- The messages of the calls stay, in the order in which the calls came, and an effect is about
one of them. -/
theorem Shift.messages (h : Shift p e o sockets sends) :
    sends.map (·.msg) = p.sends.map (·.msg) ++ e.enters ∧
      ∀ text, o.bind PoolEffect.message = some text → text ∈ p.sends.map (·.msg) := by
  have hquiet : e.quiet = true → e.enters = [] := by
    intro he
    cases e with
    | send msg => cases he
    | _ => rfl
  have hcall : ∀ {i : Nat} {c c' : Send}, p.sends[i]? = some c → c'.msg = c.msg →
      (p.sends.set i c').map (·.msg) = p.sends.map (·.msg) ++ [] :=
    fun hc hmsg => (msg_set hc hmsg).trans (List.append_nil _).symm
  have hmem : ∀ {i : Nat} {c : Send} {text : String}, p.sends[i]? = some c →
      some c.msg = some text → text ∈ p.sends.map (·.msg) := by
    rintro i c _ hc ⟨⟩
    exact List.mem_map_of_mem (List.mem_of_getElem? hc)
  cases h with
  | arrives msg => exact ⟨List.map_append, nofun⟩
  | finds i msg call free empty => exact ⟨hcall call rfl, nofun⟩
  | pops i msg w rest call free front => exact ⟨hcall call rfl, nofun⟩
  | enqueues i msg w call alive => exact ⟨hcall call rfl, fun _ => hmem call⟩
  | drops i msg w call dead => exact ⟨hcall call rfl, nofun⟩
  | pushes i msg w call free => exact ⟨hcall call rfl, nofun⟩
  | posts i msg call => exact ⟨hcall call rfl, fun _ => hmem call⟩
  | repairs i w w' e o quiet silent place id host =>
      rw [hquiet quiet, message_of_call_none silent]
      exact ⟨(List.append_nil _).symm, nofun⟩
  | rests e o quiet silent =>
      rw [hquiet quiet, message_of_call_none silent]
      exact ⟨(List.append_nil _).symm, nofun⟩

end messages

end Pool

/-! ## The texts on the sockets -/

namespace Sockets

/-- The texts that were written to the sockets. -/
def written (n : Sockets) : List String := n.threads.flatMap SocketThread.textsWritten

/-- The message that a step brings in. -/
def enters : SocketsEvent → List String
  | .client e => e.enters
  | .thread _ _ => []

section texts
variable {C : Codec} {n n' : Sockets} {e : SocketsEvent} {o : Option PoolEffect} {k : ConnId}
  {t t' : SocketThread} {workers : List SocketWorker} {count : Nat} {text : String}
  {tr : List (SocketsEvent × Option PoolEffect)}

theorem textsWritten_mono (h : t.log <+: t'.log) : t.textsWritten ⊆ t'.textsWritten :=
  ((h.filterMap _).filterMap _).subset

theorem post_log (reqs : List SocketRequest) (t : SocketThread) :
    t.log <+: (reqs.foldl (SocketThread.post C) t).log := by
  induction reqs generalizing t with
  | nil => exact List.prefix_rfl
  | cons req reqs ih =>
      refine List.IsPrefix.trans ?_ (ih _)
      unfold SocketThread.post SocketThread.run
      cases (EventLoop.machine C).step t.loop (.post (t.letter req)) with
      | none => exact List.prefix_rfl
      | some r => exact List.prefix_append _ _

/-- A step of the pool or of a thread, and what it means for the calls of `send`. -/
theorem step_messages (hstep : (machine C).step n e = some (o, n')) :
    n'.pool.sends.map (·.msg) = n.pool.sends.map (·.msg) ++ enters e ∧
      ∀ text, o.bind PoolEffect.message = some text → text ∈ n'.pool.sends.map (·.msg) := by
  cases e with
  | client e =>
      obtain ⟨_, p', hp, rfl⟩ := client_step hstep
      obtain ⟨hmsgs, hmessage⟩ := (Pool.shift hp).messages
      refine ⟨hmsgs, fun text htext => ?_⟩
      show text ∈ p'.sends.map (·.msg)
      rw [hmsgs]
      exact List.mem_append_left _ (hmessage text htext)
  | thread k e =>
      obtain ⟨_, rfl, _, _, _, _, _, _, hpool⟩ := thread_step hstep
      refine ⟨?_, nofun⟩
      rw [enters, List.append_nil]
      rcases hpool with ⟨_, hpool⟩ | ⟨how, _, hdie⟩
      · rw [hpool]
      · simp only [Pool.dieStep] at hdie
        split at hdie
        · rw [← Option.some.inj hdie]
        · cases hdie

/-- What was written stays written. -/
theorem Linked.written_mono (h : Linked C n) (hstep : (machine C).step n e = some (o, n')) :
    n.written ⊆ n'.written := by
  -- each thread has added to its log
  have hgrows : ∀ (k : ConnId) (t : SocketThread), n.threads[k]? = some t →
      ∃ t' : SocketThread, n'.threads[k]? = some t' ∧ t.log <+: t'.log := by
    intro k t ht
    cases e with
    | client e =>
        obtain ⟨hdie, p', hp, rfl⟩ := client_step hstep
        have hlt := (List.getElem?_eq_some_iff.mp ht).1
        rw [h.length] at hlt
        have hlt' := Nat.lt_of_lt_of_le hlt (Pool.mails hdie hp).connections_mono
        refine ⟨_, arrive_getElem? (List.getElem?_eq_getElem hlt'), ?_⟩
        rw [ht, Option.getD_some]
        exact post_log _ t
    | thread j e =>
        obtain ⟨_, _, u, effect, u', hu, hrun, hthreads, _⟩ := thread_step hstep
        rw [hthreads]
        by_cases hjk : j = k
        · subst hjk
          obtain rfl := Option.some.inj (ht.symm.trans hu)
          obtain ⟨_, _, heq⟩ := Option.map_eq_some_iff.mp hrun
          cases heq
          have hlt := (List.getElem?_eq_some_iff.mp ht).1
          exact ⟨_, by rw [List.getElem?_set_self hlt], List.prefix_append _ _⟩
        · exact ⟨t, by rw [List.getElem?_set_ne hjk, ht], List.prefix_rfl⟩
  intro text htext
  obtain ⟨t, ht, htext⟩ := List.mem_flatMap.mp htext
  obtain ⟨k, hk⟩ := List.mem_iff_getElem?.mp ht
  obtain ⟨t', ht', hlog⟩ := hgrows k t hk
  exact List.mem_flatMap.mpr ⟨t', List.mem_of_getElem? ht', textsWritten_mono hlog htext⟩

/-- What was written to a socket was the message of a call. -/
theorem written_messages (hrun : (machine C).Run (start workers count) tr n) :
    ∀ text ∈ n.written, text ∈ n.pool.sends.map (·.msg) := by
  have heffects : ∀ effect ∈ effects tr, ∀ text, effect.message = some text →
      text ∈ n.pool.sends.map (·.msg) := by
    refine hrun.invariant (I := fun tr (n : Sockets) => ∀ effect ∈ effects tr, ∀ text,
      effect.message = some text → text ∈ n.pool.sends.map (·.msg)) (by simp [effects]) ?_
    intro tr n n' e o _ ih hstep effect heffect text htext
    obtain ⟨hmsgs, hnew⟩ := step_messages hstep
    rw [effects, List.flatMap_append, List.mem_append] at heffect
    rcases heffect with hold | hlast
    · rw [hmsgs]
      exact List.mem_append_left _ (ih effect hold text htext)
    · have ho : o = some effect := by simpa using hlast
      exact hnew text (by rw [ho]; exact htext)
  obtain ⟨hlinked, tr', hpool, htr'⟩ := linked_of_run hrun
  intro text htext
  obtain ⟨t, ht, htext⟩ := List.mem_flatMap.mp htext
  obtain ⟨k, hk⟩ := List.mem_iff_getElem?.mp ht
  have hlt := (List.getElem?_eq_some_iff.mp hk).1
  rw [hlinked.length] at hlt
  obtain ⟨u, unread, hu, hsent, _⟩ :=
    hlinked.texts (textsAt_of_effects hpool htr' k) (List.getElem?_eq_getElem hlt)
  obtain rfl := Option.some.inj (hk.symm.trans hu)
  have hon : text ∈ sentOn k tr := hsent ▸ List.mem_append_left _ htext
  obtain ⟨effect, heffect, hon⟩ := List.mem_filterMap.mp hon
  refine heffects effect heffect text ?_
  cases effect with
  | enqueued i msg w =>
      simp only [PoolEffect.textOn] at hon
      split at hon
      · exact hon
      · cases hon
  | _ => cases hon

end texts

end Sockets

/-! ## The process and its peer -/

section servers
variable {A A' : Server} {C : Codec} {c c' : Client} {op : Op} {o : List Registration}

/-- A server that may answer more. -/
theorem Exchanged.mono (h : Exchanged A c) (hA : ∀ call rv, A call rv → A' call rv) :
    Exchanged A' c :=
  { h with
    told := by
      intro hlen tx rv hsent
      refine (h.told hlen tx rv hsent).imp_right ?_
      rintro ⟨call, hcall, hanswer⟩
      exact ⟨call, hcall, hA call rv hanswer⟩ }

/-- An operation hands messages to `send`, and takes none back. -/
theorem Client.wire_step (hstep : (history C).step c op = some (o, c')) : c.wire <+: c'.wire := by
  have hquiet : c'.wire = c.wire → c.wire <+: c'.wire := fun h => h ▸ List.prefix_rfl
  cases op with
  | request method params now =>
      cases hstep
      rw [request_client]
      exact ⟨_, congrArg (· ++ _) (register_wire c).symm⟩
  | batchRequest requests now =>
      cases hstep
      rw [batchRequest_client]
      exact ⟨_, congrArg (· ++ _) (iterate_register_wire requests.length c).symm⟩
  | frame rs =>
      cases hstep
      exact hquiet (foldl_keeps wire readOne_wire rs c)
  | body rs =>
      cases hstep
      exact hquiet (foldl_keeps wire (fun c r => complete_wire c _ _) rs c)
  | sweep now order =>
      simp only [history] at hstep
      split at hstep
      · cases hstep
        exact hquiet (foldl_timeOut_keeps wire complete_wire _ _)
      · cases hstep
  | channel =>
      cases hstep
      exact hquiet rfl
  | addSubscription id tx =>
      simp only [history] at hstep
      split at hstep
      · cases hstep
        obtain ⟨_, hframe, _⟩ := addSubscription_frame c id tx
        exact hquiet (by rw [hframe])
      · cases hstep

end servers

namespace ClientProcess

/-- The process is sound: its tables hold what the peer answered to the calls that have reached
it, and what has reached it are the messages of the tables. -/
structure Sound (A : Server) (C : Codec) (decode : String → Option Request)
    (workers : List SocketWorker) (count : Nat) (s : ClientProcess) : Prop where
  exchanged : Exchanged (s.answered A decode) s.tables
  reached : ∃ tr, (Sockets.machine C).Run (Sockets.start workers count) tr s.sockets
  messages : s.sockets.pool.sends.map (·.msg) = s.tables.wire.map C.requestText
  posted : ∀ text ∈ s.posted, text ∈ s.tables.wire.map C.requestText

section process
variable {A : Server} {C : Codec} {decode : String → Option Request}
  {workers : List SocketWorker} {count : Nat} {s s' : ClientProcess} {e : ProcessEvent}
  {o : Option PoolEffect} {n n' : Sockets} {call : MethodCall} {id : Nat} {rv : Except Error Value}
  {tr : List (ProcessEvent × Option PoolEffect)}

/-- The calls of `send` of some messages begin. -/
theorem entered {str : List (SocketsEvent × Option PoolEffect)} {msgs : List String}
    (hrun : (Sockets.machine C).Run (Sockets.start workers count) str n)
    (h : msgs.foldlM (enter C) n = some n') :
    (∃ str', (Sockets.machine C).Run (Sockets.start workers count) str' n') ∧
      n.written ⊆ n'.written ∧
      n'.pool.sends.map (·.msg) = n.pool.sends.map (·.msg) ++ msgs := by
  induction msgs generalizing n str with
  | nil =>
      obtain rfl := Option.some.inj h
      exact ⟨⟨str, hrun⟩, fun _ ht => ht, (List.append_nil _).symm⟩
  | cons msg msgs ih =>
      rw [List.foldlM_cons] at h
      obtain ⟨m, hm, h⟩ := Option.bind_eq_some_iff.mp h
      obtain ⟨⟨o, m'⟩, hstep, rfl⟩ := Option.map_eq_some_iff.mp hm
      obtain ⟨hreached, hwritten, hmsgs⟩ := ih (hrun.snoc hstep) h
      have hlinked := (Sockets.linked_of_run hrun).1
      refine ⟨hreached, fun _ ht => hwritten (hlinked.written_mono hstep ht), ?_⟩
      rw [hmsgs, (Sockets.step_messages hstep).1, List.append_assoc]
      rfl

theorem receivedCalls_mono (h : s.received ⊆ s'.received) :
    s.receivedCalls decode ⊆ s'.receivedCalls decode := by
  intro call hcall
  obtain ⟨req, hreq, hcall⟩ := List.mem_flatMap.mp hcall
  obtain ⟨text, htext, hreq⟩ := List.mem_filterMap.mp hreq
  exact List.mem_flatMap.mpr ⟨req, List.mem_filterMap.mpr ⟨text, h htext, hreq⟩, hcall⟩

/-- Only messages of the tables reach the peer. -/
theorem Sound.received (h : Sound A C decode workers count s) :
    ∀ text ∈ s.received, text ∈ s.tables.wire.map C.requestText := by
  intro text htext
  rcases List.mem_append.mp htext with hwritten | hposted
  · obtain ⟨str, hrun⟩ := h.reached
    rw [← h.messages]
    exact Sockets.written_messages hrun text hwritten
  · exact h.posted text hposted

/-- An answer to a call that has reached the peer is an answer to a call of the tables. -/
theorem Sound.answers (h : Sound A C decode workers count s)
    (hreads : ∀ req ∈ s.tables.wire, decode (C.requestText req) = some req)
    (hanswer : Answers A (s.receivedCalls decode) id rv) :
    Answers (s.answered A decode) s.tables.calls id rv := by
  obtain ⟨call, hcall, hid, hrv⟩ := hanswer
  refine ⟨call, ?_, hid, hrv, hcall⟩
  obtain ⟨req, hreq, hmem⟩ := List.mem_flatMap.mp hcall
  obtain ⟨text, htext, hreq⟩ := List.mem_filterMap.mp hreq
  obtain ⟨req', hreq', rfl⟩ := List.mem_map.mp (h.received text htext)
  obtain rfl := Option.some.inj ((hreads req' hreq').symm.trans hreq)
  exact List.mem_flatMap.mpr ⟨req', hreq', hmem⟩

theorem sound_start (A : Server) (C : Codec) (decode : String → Option Request)
    (workers : List SocketWorker) (count : Nat) :
    Sound A C decode workers count (start workers count) where
  exchanged := exchanged_new _
  reached := ⟨[], .nil⟩
  messages := rfl
  posted _ htext := absurd htext List.not_mem_nil

/-- An operation on the tables other than the dispatch of a frame. -/
theorem op_step {op : Op} (hstep : (machine C).step s (.op op) = some (o, s')) :
    (∀ rs, op ≠ .frame rs) ∧ ∃ regs sockets, (history C).step s.tables op =
        some (regs, s'.tables) ∧
      ((s'.tables.wire.drop s.tables.wire.length).map C.requestText).foldlM (enter C) s.sockets =
        some sockets ∧ s' = { s with tables := s'.tables, sockets } := by
  cases op with
  | frame rs => cases hstep
  | _ =>
      refine ⟨nofun, ?_⟩
      simp only [machine] at hstep
      obtain ⟨⟨regs, tables⟩, hop, hstep⟩ := Option.bind_eq_some_iff.mp hstep
      obtain ⟨sockets, henter, heq⟩ := Option.bind_eq_some_iff.mp hstep
      cases heq
      exact ⟨regs, sockets, hop, henter, rfl⟩

/-- A step beyond the tables, with what a thread dispatches in it. -/
theorem sockets_step {se : SocketsEvent} (hstep : (machine C).step s (.sockets se) = some (o, s')) :
    Sockets.enters se = [] ∧ ∃ sockets, (Sockets.machine C).step s.sockets se = some (o, sockets) ∧
      s' = { tables := s.tables.readFrame (heard C s.sockets se), sockets,
             posted := s.posted ++ (o.bind PoolEffect.postedText).toList } := by
  have hgoes : ∀ se, ((Sockets.machine C).step s.sockets se).bind (fun r => some (r.1,
      ({ tables := s.tables.readFrame (heard C s.sockets se), sockets := r.2,
         posted := s.posted ++ (r.1.bind PoolEffect.postedText).toList } : ClientProcess))) =
        some (o, s') → ∃ sockets, (Sockets.machine C).step s.sockets se = some (o, sockets) ∧
      s' = { tables := s.tables.readFrame (heard C s.sockets se), sockets,
             posted := s.posted ++ (o.bind PoolEffect.postedText).toList } := by
    intro se h
    obtain ⟨⟨o', sockets⟩, hse, heq⟩ := Option.bind_eq_some_iff.mp h
    cases heq
    exact ⟨sockets, hse, rfl⟩
  cases se with
  | client e =>
      cases e with
      | send msg => cases hstep
      | _ => exact ⟨rfl, hgoes _ hstep⟩
  | thread k e => exact ⟨rfl, hgoes _ hstep⟩

theorem Sound.op {op : Op} (h : Sound A C decode workers count s)
    (hpeer : HonestPeer A C decode s (.op op))
    (hstep : (machine C).step s (.op op) = some (o, s')) :
    Sound A C decode workers count s' := by
  obtain ⟨hframe, regs, sockets, hop, henter, hs'⟩ := op_step hstep
  have hhonest : Honest (s.answered A decode) s.tables op := by
    cases op with
    | frame rs => exact absurd rfl (hframe rs)
    | body rs => exact fun r hr => h.answers hpeer.reads (hpeer.bodies rs rfl r hr)
    | _ => trivial
  obtain ⟨str, hrun⟩ := h.reached
  obtain ⟨hreached, hwritten, hmsgs⟩ := entered hrun henter
  obtain ⟨more, hwire⟩ := Client.wire_step hop
  have hreceived : s.received ⊆ s'.received := by
    rw [hs']
    exact List.append_subset.mpr ⟨fun _ ht => List.mem_append_left _ (hwritten ht),
      fun _ ht => List.mem_append_right _ ht⟩
  refine ⟨?_, ?_, ?_, ?_⟩
  · exact (h.exchanged.step hhonest hop).mono fun call rv hanswer =>
      ⟨hanswer.1, receivedCalls_mono hreceived hanswer.2⟩
  · rw [hs']
    exact hreached
  · rw [hs']
    show sockets.pool.sends.map (·.msg) = _
    rw [hmsgs, h.messages, ← hwire, List.drop_left, List.map_append]
  · rw [hs']
    intro text htext
    show text ∈ s'.tables.wire.map C.requestText
    rw [← hwire, List.map_append]
    exact List.mem_append_left _ (h.posted text htext)

theorem Sound.sockets {se : SocketsEvent} (h : Sound A C decode workers count s)
    (hpeer : HonestPeer A C decode s (.sockets se))
    (hstep : (machine C).step s (.sockets se) = some (o, s')) :
    Sound A C decode workers count s' := by
  obtain ⟨henters, sockets, hse, rfl⟩ := sockets_step hstep
  obtain ⟨str, hrun⟩ := h.reached
  obtain ⟨hmsgs, hmessage⟩ := Sockets.step_messages hse
  rw [henters, List.append_nil] at hmsgs
  have hwire : (s.tables.readFrame (heard C s.sockets se)).wire = s.tables.wire :=
    Client.foldl_keeps Client.wire Client.readOne_wire _ _
  have hhonest : Honest (s.answered A decode) s.tables (.frame (heard C s.sockets se)) :=
    fun r hr hsub => h.answers hpeer.reads (hpeer.threads se rfl r hr hsub)
  have hwritten := (Sockets.linked_of_run hrun).1.written_mono hse
  refine ⟨?_, ⟨_, hrun.snoc hse⟩, ?_, ?_⟩
  · refine (h.exchanged.step (C := C) hhonest rfl).mono fun call rv hanswer =>
      ⟨hanswer.1, receivedCalls_mono ?_ hanswer.2⟩
    refine List.append_subset.mpr ⟨fun _ ht => List.mem_append_left _ (hwritten ht), ?_⟩
    exact fun _ ht => List.mem_append_right _ (List.mem_append_left _ ht)
  · show sockets.pool.sends.map (·.msg) = _
    rw [hmsgs, h.messages, hwire]
  · intro text htext
    show text ∈ (s.tables.readFrame (heard C s.sockets se)).wire.map C.requestText
    rw [hwire]
    rcases List.mem_append.mp htext with hold | hnew
    · exact h.posted text hold
    · -- what is posted is the message of a call
      rw [← h.messages, ← hmsgs]
      refine hmessage text ?_
      cases o with
      | none => cases hnew
      | some effect =>
          cases effect with
          | posted i msg => simpa [PoolEffect.postedText, PoolEffect.message, eq_comm] using hnew
          | _ => cases hnew

theorem sound_of_run (hrun : (machine C).Run (start workers count) tr s)
    (hpeer : (machine C).Along (HonestPeer A C decode) (start workers count) tr) :
    Sound A C decode workers count s := by
  refine hrun.invariant_along hpeer (I := fun _ s => Sound A C decode workers count s)
    (sound_start A C decode workers count) ?_
  intro tr s s' e o _ hpeer h hstep
  cases e with
  | op op => exact h.op hpeer hstep
  | sockets se => exact h.sockets hpeer hstep

/-- **A future hears from the peer what it answered to its own call, when that had reached it.**
In every run of a client with its workers, their threads and a peer that reads the requests as they
were meant and answers only calls that have reached it, and while the counter makes no full turn:
a poll of the future of a call is ready only with an answer to this call, which was written to a
socket or posted before, and fails only with such an answer, or the timeout. -/
theorem heard_end_to_end {α : Type} {tx : Oneshot} {de : Value → Except Error α}
    {f : YumFuture α} (hrun : (machine C).Run (start workers count) tr s)
    (hpeer : (machine C).Along (HonestPeer A C decode) (start workers count) tr)
    (hturn : s.tables.oneshots.length ≤ word) (hcall : s.tables.calls[tx]? = some call)
    (hf : f = .waiting tx de ∨ f = .waitingFn tx de) :
    (∀ t, (f.poll s.tables.oneshots).1 = .ok (.ready t) →
      call ∈ s.receivedCalls decode ∧ Own A call de (.ok t)) ∧
    (∀ e, (f.poll s.tables.oneshots).1 = .error e → e = Client.timedOut ∨
      call ∈ s.receivedCalls decode ∧ Own A call de (.error e)) := by
  have hsound := sound_of_run hrun hpeer
  have hlt : tx < s.tables.oneshots.length := by
    rw [← hsound.exchanged.length]
    exact (List.getElem?_eq_some_iff.mp hcall).1
  have htells : Tells (s.answered A decode) call de [] (f.poll s.tables.oneshots).1 := by
    have hunder := Underway.start hsound.exchanged
    rcases hf with rfl | rfl
    · exact hunder.tells hturn hcall hlt de _
    · exact hunder.tells hturn hcall hlt de _
  have hown : ∀ r, Own (s.answered A decode) call de r →
      call ∈ s.receivedCalls decode ∧ Own A call de r := by
    rintro r ⟨rv, ⟨hanswer, hreceived⟩, hread⟩
    exact ⟨hreceived, rv, hanswer, hread⟩
  exact ⟨fun t ht => hown _ (htells.ready t ht), fun e he => (htells.error e he).imp_right (hown _)⟩

end process

/-- A peer that knows one request and one answer. -/
def oneAnswer : Codec where
  textResponse _ := .ok (.single (.success ⟨.string "0x1", .num 1⟩))
  sliceResponse _ := .error .json
  textUpdate _ := .error .json
  requestText _ := "eth_blockNumber"
  debugStr s := s

/-- The request as the peer reads it. -/
def readRequest (text : String) : Option Request :=
  if text = "eth_blockNumber" then some (.single (buildRequest 1 "eth_blockNumber" [])) else none

/-- The number of the only block. -/
def readOne : Value → Except Error Nat
  | .string "0x1" => .ok 1
  | _ => .error .json

/-- The request is sent and written, and the thread reads the answer. -/
def askAndRead : List ProcessEvent :=
  [.op (.request "eth_blockNumber" [] 0), .sockets (.client (.call 0)),
   .sockets (.client (.call 0)), .sockets (.client (.call 0)),
   .sockets (.thread 0 (.work (.error .wouldBlock))),
   .sockets (.thread 0 (.work (.error .wouldBlock))),
   .sockets (.thread 0 (.work (.ok (.text "0x1"))))]

/-- Nothing comes from the peer. -/
theorem quiet_peer {s : ClientProcess} {e : ProcessEvent}
    (hwire : ∀ req ∈ s.tables.wire, req = .single (buildRequest 1 "eth_blockNumber" []))
    (hthreads : ∀ se, e = .sockets se → heard oneAnswer s.sockets se = [])
    (hbodies : ∀ rs, e ≠ .op (.body rs)) : HonestPeer quotes oneAnswer readRequest s e where
  reads req hreq := by
    rw [hwire req hreq]
    rfl
  threads se hse r hr := by
    rw [hthreads se hse] at hr
    cases hr
  bodies rs he := absurd he (hbodies rs)

theorem block_number_heard : ∃ tr s,
    (machine oneAnswer).Run (start [Pool.soleWorker] 1) tr s ∧ tr.map Prod.fst = askAndRead ∧
    ((YumFuture.waiting 0 readOne).poll s.tables.oneshots).1 = .ok (.ready 1) ∧
    buildRequest 1 "eth_blockNumber" [] ∈ s.receivedCalls readRequest ∧
    Own quotes (buildRequest 1 "eth_blockNumber" []) readOne (.ok 1) := by
  have hrun : (machine oneAnswer).Run (start [Pool.soleWorker] 1) _ _ :=
    Mealy.run_of_exec (show (machine oneAnswer).exec (start [Pool.soleWorker] 1) askAndRead =
      some (_, _) from rfl)
  have hf : YumFuture.waiting 0 readOne = .waiting 0 readOne ∨
      YumFuture.waiting 0 readOne = .waitingFn 0 readOne := Or.inl rfl
  refine ⟨_, _, hrun, rfl, rfl, ?_⟩
  refine (heard_end_to_end hrun ?_ (by decide) rfl hf).1 1 rfl
  refine Mealy.along_cons (quiet_peer (fun _ h => absurd h List.not_mem_nil) nofun nofun) rfl ?_
  iterate 5
    refine Mealy.along_cons (quiet_peer (fun _ h => List.mem_singleton.mp h)
      (fun se hse => by cases hse; rfl) nofun) rfl ?_
  -- the answer comes in
  refine Mealy.along_single ⟨?_, ?_, nofun⟩
  · intro req hreq
    obtain rfl := List.mem_singleton.mp hreq
    rfl
  · intro se hse r hr _
    cases hse
    obtain rfl := List.mem_singleton.mp hr
    exact ⟨buildRequest 1 "eth_blockNumber" [], List.mem_singleton_self _, rfl, Or.inl ⟨rfl, rfl⟩⟩

end ClientProcess

end Ethereyum
