/-
# `SocketThreads` — the pool with the threads of its connections

`Pool` sees of a connection what a sender sees: a mailbox that takes letters until one day it
does not.  `EventLoop` is the thread at the other end.  Here they are put together: what a step
of the pool puts into a mailbox is posted to the thread of that connection, a connection that the
sentinel opens comes with its thread, and a thread of the pool ends when the loop does.

    pool       accepts k ─────────────── deliver k ──────────── die k
                  ║                          ║                     ║
    threads    in its loop               post, accepted        the loop ended

The pool with its threads does what `Pool` does, and each of its threads does what `EventLoop`
does (`threads_carry_out`).  So the two halves of the way of a text meet: the texts that are
written to a socket, followed by those that are not, are the texts that were sent there, in order
and each from one call (`sent_once`).
-/
import Ethereyum.EventLoop
import Ethereyum.Lib.Simulation
import Ethereyum.RoundRobin

namespace Ethereyum

/-! ## The parties -/

/-- The thread of a connection, with the log of what it did. -/
structure SocketThread where
  log : List (LoopEvent × LoopEffect)
  loop : EventLoop

/-- A client with the threads of its connections. -/
structure Sockets where
  pool : Pool
  threads : List SocketThread

inductive SocketsEvent where
  /-- a caller, or the sentinel -/
  | client (e : PoolEvent)
  | thread (k : ConnId) (e : LoopEvent)

/-- The connections that somebody may send on: those of the workers in the deque and of the
workers checked out. -/
def Pool.users (p : Pool) : List ConnId := (p.sockets ++ p.held).map (·.tx)

/-- What becomes of a thread with what it does. -/
def LoopEffect.endsAs : LoopEffect → Option ThreadState
  | .ended .unwrapped _ => some .panicked
  | .ended .unreachable _ => some .panicked
  | .ended _ _ => some .ended
  | _ => none

namespace SocketThread

/-- The thread of a connection that `connect` has returned. -/
def opened : SocketThread :=
  { log := [(.handshake true, .quiet), (.tryRecv, .quiet)],
    loop := { EventLoop.start with opener := .opened, phase := .writing } }

/-- What was posted to it. -/
def posted (t : SocketThread) : List SocketRequest := (EventLoop.accepted t.log).map Prod.fst

/-- The next letter with this request; its question goes by the number of the letter. -/
def letter (t : SocketThread) (req : SocketRequest) : Letter :=
  (req, match req with
    | .connectedStatus => some t.posted.length
    | .ping => some t.posted.length
    | _ => none)

/-- The step `e` of the thread. -/
def run (C : Codec) (t : SocketThread) (e : LoopEvent) : Option (LoopEffect × SocketThread) :=
  ((EventLoop.machine C).step t.loop e).map fun r => (r.1, ⟨t.log ++ [(e, r.1)], r.2⟩)

/-- The texts handed to `write_message`. -/
def textsWritten (t : SocketThread) : List String :=
  (EventLoop.written t.log).filterMap fun msg => match msg with
    | .text s => some s
    | _ => none

/-- `unbounded_send`. -/
def post (C : Codec) (t : SocketThread) (req : SocketRequest) : SocketThread :=
  match t.run C (.post (t.letter req)) with
  | some r => r.2
  | none => t

end SocketThread

namespace Sockets

/-- The threads, when the mailboxes of the pool have become those of `connections`. -/
def arrive (C : Codec) (threads : List SocketThread) (connections : List Connection) :
    List SocketThread :=
  connections.mapIdx fun k c =>
    let t := threads[k]?.getD .opened
    (c.mailbox.drop t.posted.length).foldl (SocketThread.post C) t

/-- What the thread of the connection `k` does by itself. -/
def moves (n : Sockets) (k : ConnId) : LoopEvent → Bool
  | .work _ => true
  | .wake => true
  | .hangUp => decide (k ∉ n.pool.users)
  | _ => false

/-- The client with its threads as a machine. -/
def machine (C : Codec) : Mealy Sockets SocketsEvent (Option PoolEffect) where
  step n
    | .client (.die _ _) => none
    | .client e =>
        (Pool.machine.step n.pool e).map fun r =>
          (r.1, { pool := r.2, threads := arrive C n.threads r.2.connections })
    | .thread k e =>
        if n.moves k e then do
          let t ← n.threads[k]?
          let (o, t) ← t.run C e
          let threads := n.threads.set k t
          match o.endsAs with
          | some how => (n.pool.dieStep k how).map fun pool => (none, { pool, threads })
          | none => some (none, { n with threads })
        else none

/-- A client on connections that were just opened. -/
def start (workers : List SocketWorker) (count : Nat) : Sockets :=
  { pool := Pool.fresh workers (List.replicate count { mailbox := [], thread := .running }),
    threads := List.replicate count .opened }

end Sockets

/-! ## What a step of the pool puts into the mailboxes -/

namespace Pool

/-- What a step of the pool does to the mailboxes and to their users, and reports. -/
inductive Mails (p : Pool) (o : Option PoolEffect) (p' : Pool) : Prop
  | nothing (connections_eq : p'.connections = p.connections) (users : p'.users ⊆ p.users)
      (silent : ∀ k, o.bind (PoolEffect.textOn k) = none)
  | letter (k : ConnId) (req : SocketRequest) (user : k ∈ p.users) (alive : p.accepts k = true)
      (connections_eq : p'.connections = (p.deliver k req).connections)
      (users : p'.users ⊆ p.users)
      (told : ∀ k', o.bind (PoolEffect.textOn k') = if k = k' then req.text? else none)
  | connection
      (connections_eq : p'.connections = p.connections ++ [{ mailbox := [], thread := .running }])
      (users : p'.users ⊆ p.connections.length :: p.users)
      (silent : ∀ k, o.bind (PoolEffect.textOn k) = none)

section mails
variable {p p' : Pool} {e : PoolEvent} {o : Option PoolEffect} {outcome : Bool}

theorem mem_users {k : ConnId} : k ∈ p.users ↔
    (∃ w ∈ p.sockets, w.tx = k) ∨ ∃ c ∈ p.sends, ∃ w, c.worker = some w ∧ w.tx = k := by
  simp only [users, held, List.map_append, List.mem_append, List.mem_map, List.mem_filterMap]
  constructor
  · rintro (h | ⟨w, ⟨c, hc, hw⟩, htx⟩)
    · exact Or.inl h
    · exact Or.inr ⟨c, hc, w, hw, htx⟩
  · rintro (h | ⟨c, hc, w, hw, htx⟩)
    · exact Or.inl h
    · exact Or.inr ⟨w, ⟨c, hc, hw⟩, htx⟩

theorem users_of_socket {w : SocketWorker} (h : w ∈ p.sockets) : w.tx ∈ p.users :=
  mem_users.mpr (Or.inl ⟨w, h, rfl⟩)

theorem users_of_send {c : Send} {w : SocketWorker} (h : c ∈ p.sends) (hw : c.worker = some w) :
    w.tx ∈ p.users :=
  mem_users.mpr (Or.inr ⟨c, h, w, hw, rfl⟩)

/-- Where the workers come from, their connections do. -/
theorem users_subset (hsockets : ∀ w ∈ p'.sockets, w.tx ∈ p.users)
    (hsends : ∀ c ∈ p'.sends, ∀ w, c.worker = some w → w.tx ∈ p.users) : p'.users ⊆ p.users := by
  intro k hk
  rcases mem_users.mp hk with ⟨w, hw, rfl⟩ | ⟨c, hc, w, hw, rfl⟩
  · exact hsockets w hw
  · exact hsends c hc w hw

/-- A worker in the deque is replaced by one on the same connection. -/
theorem users_set (w' : SocketWorker) {i : Nat} {w : SocketWorker} (hw : p.sockets[i]? = some w)
    (htx : w'.tx = w.tx) (hsockets : p'.sockets = p.sockets.set i w')
    (hsends : p'.sends = p.sends) : p'.users ⊆ p.users := by
  refine users_subset ?_ ?_
  · rw [hsockets]
    intro v hv
    rcases List.mem_or_eq_of_mem_set hv with hv | rfl
    · exact users_of_socket hv
    · rw [htx]
      exact users_of_socket (List.mem_of_getElem? hw)
  · rw [hsends]
    intro c hc v hv
    exact users_of_send hc hv

theorem users_congr (hsockets : p'.sockets = p.sockets) (hsends : p'.sends = p.sends) :
    p'.users ⊆ p.users := by
  rw [users, users, held, held, hsockets, hsends]
  exact fun _ h => h

/-- The users of a call that has moved on: the worker that it took from the deque, or has. -/
theorem users_call {i : Nat} {c' : Send} (hsockets : ∀ w ∈ p'.sockets, w.tx ∈ p.users)
    (hsends : p'.sends = p.sends.set i c') (hworker : ∀ w, c'.worker = some w → w.tx ∈ p.users) :
    p'.users ⊆ p.users := by
  refine users_subset hsockets ?_
  rw [hsends]
  intro c hc w hw
  rcases List.mem_or_eq_of_mem_set hc with hc | rfl
  · exact users_of_send hc hw
  · exact hworker w hw

/-- A call that is at no worker has no user. -/
theorem users_settled {i : Nat} {c' : Send} (hsockets : ∀ w ∈ p'.sockets, w.tx ∈ p.users)
    (hsends : p'.sends = p.sends.set i c') (hworker : c'.worker = none) : p'.users ⊆ p.users := by
  refine users_call hsockets hsends ?_
  intro w hw
  rw [hworker] at hw
  cases hw

theorem sendStep_mails {i : Nat} {c : Send} (hc : p.sends[i]? = some c)
    (h : p.sendStep i c = some (o, p')) : Mails p o p' := by
  have hmem := List.mem_of_getElem? hc
  have hstays : ∀ w ∈ p.sockets, w.tx ∈ p.users := fun w => users_of_socket
  obtain ⟨msg, pc⟩ := c
  cases pc with
  | start =>
      simp only [sendStep] at h
      split at h
      · cases h
      · split at h
        · cases h
          exact .nothing rfl (users_settled hstays rfl rfl) fun _ => rfl
        · next w rest hfront =>
            cases h
            refine .nothing rfl (users_call ?_ rfl ?_) fun _ => rfl
            · intro v hv
              exact hstays v (hfront ▸ List.mem_cons_of_mem _ hv)
            · rintro v hv
              cases hv
              exact hstays w (hfront ▸ List.mem_cons_self)
  | holding w =>
      simp only [sendStep] at h
      split at h
      · next halive =>
          cases h
          refine .letter w.tx (.text msg) (users_of_send hmem rfl) halive rfl
            (users_call hstays rfl ?_) fun _ => rfl
          rintro v hv
          cases hv
          exact users_of_send hmem rfl
      · cases h
        exact .nothing rfl (users_settled hstays rfl rfl) fun _ => rfl
  | returning w =>
      simp only [sendStep] at h
      split at h
      · cases h
      · cases h
        refine .nothing rfl (users_settled ?_ rfl rfl) fun _ => rfl
        intro v hv
        rcases List.mem_append.mp hv with hv | hv
        · exact hstays v hv
        · obtain rfl := List.mem_singleton.mp hv
          exact users_of_send hmem rfl
  | posting =>
      cases h
      exact .nothing rfl (users_settled hstays rfl rfl) fun _ => rfl
  | done => cases h

theorem stopStep_mails (h : p.stopStep = some (o, p')) : Mails p o p' := by
  have hsame : ∀ w ∈ p.sockets, w.tx ∈ p.users := fun w => users_of_socket
  cases stopStep_cases h with
  | completes i pc_eq past => exact .nothing rfl (users_congr rfl rfl) fun _ => rfl
  | fails i w pc_eq place dead => exact .nothing rfl (users_congr rfl rfl) fun _ => rfl
  | stops i w k pc_eq place alive thread =>
      refine .letter w.tx .stop (hsame w (List.mem_of_getElem? place)) alive rfl
        (users_set { w with thread := none } place rfl rfl rfl) fun k' => ?_
      split <;> rfl
  | stopsAgain i w pc_eq place alive thread =>
      refine .letter w.tx .stop (hsame w (List.mem_of_getElem? place)) alive rfl
        (users_congr rfl rfl) fun k' => ?_
      split <;> rfl
  | joins i k pc_eq ended => exact .nothing rfl (users_congr rfl rfl) fun _ => rfl
  | breaks i k pc_eq => exact .nothing rfl (users_congr rfl rfl) fun _ => rfl

/-- A letter of the sentinel, which is no text. -/
theorem Mails.of_deliver (req : SocketRequest) {i : Nat} {w : SocketWorker}
    (hw : p.sockets[i]? = some w) (halive : p.accepts w.tx = true) (hreq : req.text? = none)
    (hconnections : p'.connections = (p.deliver w.tx req).connections)
    (hsockets : p'.sockets = p.sockets) (hsends : p'.sends = p.sends) : Mails p none p' := by
  refine .letter w.tx req (users_of_socket (List.mem_of_getElem? hw)) halive hconnections
    (users_congr hsockets hsends) fun k' => ?_
  rw [hreq, ite_self]
  rfl

/-- `askStatus` sends only where somebody reads. -/
theorem alive_of_askStatus {w : SocketWorker} (h : p.askStatus w = some p') :
    p.accepts w.tx = true := by
  simp only [askStatus] at h
  split at h
  · next hasks => exact (Bool.and_eq_true_iff.mp hasks).2
  · cases h

theorem visit_mails {i : Nat} {w : SocketWorker} {pc : SentinelPc} (hw : p.sockets[i]? = some w)
    (h : p.visit outcome i w pc = some p') : Mails p none p' := by
  have hawaits : ∀ {k there gone}, (if outcome then some { p with sentinel := there }
      else if p.accepts k then none else some { p with sentinel := gone }) = some p' →
      Mails p none p' := by
    intro k there gone h
    obtain ⟨_, rfl⟩ := sentinel_of_awaited h
    exact .nothing rfl (users_congr rfl rfl) fun _ => rfl
  cases pc with
  | pinging =>
      simp only [visit] at h
      split at h
      · next halive =>
          cases h
          exact .of_deliver .ping hw halive rfl rfl rfl rfl
      · cases h
        exact .nothing rfl (users_congr rfl rfl) fun _ => rfl
  | pinged => exact hawaits h
  | reconnecting =>
      cases hask : p.askStatus w with
      | none =>
          simp only [visit, hask, Option.some.injEq] at h
          subst h
          exact .nothing rfl (users_set { w with thread := none } hw rfl rfl rfl) fun _ => rfl
      | some q =>
          simp only [visit, hask, Option.some.injEq] at h
          subst h
          have halive := alive_of_askStatus hask
          obtain rfl := askStatus_eq_some hask
          exact .of_deliver .connectedStatus hw halive rfl rfl rfl rfl
  | asked => exact hawaits h
  | connecting =>
      cases outcome with
      | true =>
          obtain rfl := Option.some.inj h
          refine .connection rfl ?_ fun _ => rfl
          intro k hk
          rcases mem_users.mp hk with ⟨v, hv, rfl⟩ | ⟨c, hc, v, hv, rfl⟩
          · rcases List.mem_or_eq_of_mem_set hv with hv | rfl
            · exact List.mem_cons_of_mem _ (users_of_socket hv)
            · exact List.mem_cons_self
          · exact List.mem_cons_of_mem _ (users_of_send hc hv)
      | false =>
          obtain rfl := Option.some.inj h
          exact .nothing rfl (users_congr rfl rfl) fun _ => rfl
  | checking =>
      cases outcome with
      | false =>
          obtain rfl := Option.some.inj h
          exact .nothing rfl (users_congr rfl rfl) fun _ => rfl
      | true =>
          simp only [visit, if_true] at h
          cases hask : p.askStatus w with
          | none =>
              simp only [hask, Option.some.injEq] at h
              subst h
              exact .nothing rfl (users_congr rfl rfl) fun _ => rfl
          | some q =>
              simp only [hask, Option.some.injEq] at h
              subst h
              have halive := alive_of_askStatus hask
              obtain rfl := askStatus_eq_some hask
              exact .of_deliver .connectedStatus hw halive rfl rfl rfl rfl
  | askedAgain => exact hawaits h

theorem sentinelStep_mails (h : p.sentinelStep outcome = some p') : Mails p none p' := by
  simp only [sentinelStep] at h
  split at h
  · split at h
    · cases h
    · cases h
      exact .nothing rfl (users_congr rfl rfl) fun _ => rfl
  · split at h
    · cases h
      exact .nothing rfl (users_congr rfl rfl) fun _ => rfl
    · next w hw => exact visit_mails hw h
  · cases h

/-- Every step of the pool, but the end of a thread. -/
theorem mails (hdie : ∀ k how, e ≠ .die k how) (h : machine.step p e = some (o, p')) :
    Mails p o p' := by
  cases e with
  | send msg =>
      cases h
      refine .nothing rfl (users_subset (fun w (hw : w ∈ p.sockets) => users_of_socket hw) ?_)
        fun _ => rfl
      intro c hc w hw
      rcases List.mem_append.mp hc with hc | hc
      · exact users_of_send hc hw
      · obtain rfl := List.mem_singleton.mp hc
        cases hw
  | call i =>
      obtain ⟨c, hc, h⟩ := Option.bind_eq_some_iff.mp h
      exact sendStep_mails hc h
  | stop =>
      simp only [machine] at h
      split at h
      · cases h
      · cases h
        exact .nothing rfl (users_congr rfl rfl) fun _ => rfl
  | stopNext => exact stopStep_mails h
  | sentinel outcome =>
      obtain ⟨q, hq, heq⟩ := Option.map_eq_some_iff.mp h
      cases heq
      exact sentinelStep_mails hq
  | die k how => exact absurd rfl (hdie k how)

theorem Mails.connections_mono (h : Mails p o p') :
    p.connections.length ≤ p'.connections.length := by
  cases h with
  | nothing connections_eq users silent => rw [connections_eq]
  | letter k req user alive connections_eq users told =>
      rw [connections_eq, deliver, List.length_modify]
  | connection connections_eq users silent =>
      rw [connections_eq, List.length_append]
      exact Nat.le_add_right _ _

end mails

end Pool

/-! ## What a thread does -/

namespace SocketThread

/-- What a thread does by itself, when `connect` has returned its connection. -/
structure Moved (s : EventLoop) (e : LoopEvent) (o : LoopEffect) (s' : EventLoop) : Prop where
  opener : s'.opener = .opened
  accepted : EventLoop.accepted [(e, o)] = []
  goes : o.endsAs = none → s'.inLoop = s.inLoop
  ends : ∀ how, o.endsAs = some how → s.inLoop = true ∧ s'.inLoop = false ∧ how ≠ .running
  senders : e ≠ .hangUp → s'.senders = s.senders

section threads
variable {C : Codec} {s s' : EventLoop} {e : LoopEvent} {o : LoopEffect} {p p' : Pool} {k : ConnId}
  {t t' : SocketThread} {c : Connection} {req : SocketRequest}

theorem handled_endsAs (m : Letter) : m.handled.endsAs = none := by
  unfold Letter.handled
  split <;> rfl

theorem endsAs_ne_running (o : LoopEffect) : o.endsAs ≠ some .running := by
  intro hends
  unfold LoopEffect.endsAs at hends
  split at hends <;> cases hends

/-- The thread stays in its loop, or out of it. -/
theorem Moved.stays (hopener : s'.opener = .opened) (haccepted : EventLoop.accepted [(e, o)] = [])
    (hends : o.endsAs = none) (hloop : s'.inLoop = s.inLoop)
    (hsenders : e ≠ .hangUp → s'.senders = s.senders) : Moved s e o s' := by
  refine ⟨hopener, haccepted, fun _ => hloop, ?_, hsenders⟩
  intro how hhow
  cases hends.symm.trans hhow

/-- The thread leaves its loop. -/
theorem Moved.leaves {how : ThreadState} (hopener : s'.opener = .opened)
    (haccepted : EventLoop.accepted [(e, o)] = []) (hends : o.endsAs = some how)
    (hloop : s.inLoop = true) (hafter : s'.inLoop = false) (hsenders : s'.senders = s.senders) :
    Moved s e o s' := by
  refine ⟨hopener, haccepted, ?_, ?_, fun _ => hsenders⟩
  · intro hnone
    cases hends.symm.trans hnone
  · intro how' hhow'
    cases hends.symm.trans hhow'
    refine ⟨hloop, hafter, ?_⟩
    intro hrunning
    exact endsAs_ne_running o (hends.trans (congrArg some hrunning))

theorem moved_of_turn {n : Sockets} (hmoves : n.moves k e = true) (hopener : s.opener = .opened)
    (hturn : EventLoop.Turns C s e o s') : Moved s e o s' := by
  cases hturn with
  | shakes phase_eq => cases hmoves
  | refuses phase_eq => cases hmoves
  | takesOver opener_eq phase_eq => cases hmoves
  | retries opener_eq phase_ne => cases hmoves
  | givesUp opener_eq => cases hmoves
  | accepts m opener_eq senders_eq inLoop_eq => cases hmoves
  | rejects m opener_eq senders_eq inLoop_eq => cases hmoves
  | idles => cases hmoves
  | hangsUp opener_eq senders_eq =>
      exact .stays hopener rfl rfl rfl fun h => absurd rfl h
  | unwraps read phase_eq opener_eq => cases hopener.symm.trans opener_eq
  | drains read phase_eq mailbox_eq senders_eq =>
      refine .stays hopener rfl rfl ?_ fun _ => rfl
      simp [EventLoop.inLoop, phase_eq]
  | takes read m rest phase_eq mailbox_eq goes =>
      refine .stays hopener ?_ (handled_endsAs m) rfl fun _ => rfl
      unfold Letter.handled
      split <;> rfl
  | blocks phase_eq =>
      refine .stays hopener rfl rfl ?_ fun _ => rfl
      simp [EventLoop.inLoop, phase_eq]
  | dispatches msg decoded phase_eq decodes =>
      exact .stays hopener rfl rfl rfl fun _ => rfl
  | wakes phase_eq =>
      refine .stays hopener rfl rfl ?_ fun _ => rfl
      simp [EventLoop.inLoop, phase_eq]
  | ends read phase_eq mailbox_eq senders_eq =>
      exact .leaves hopener rfl rfl (by simp [EventLoop.inLoop, phase_eq]) rfl rfl
  | stops read reply rest phase_eq mailbox_eq =>
      exact .leaves hopener rfl rfl (by simp [EventLoop.inLoop, phase_eq]) rfl rfl
  | fails phase_eq =>
      exact .leaves hopener rfl rfl (by simp [EventLoop.inLoop, phase_eq]) rfl rfl
  | breaks msg phase_eq panics =>
      exact .leaves hopener rfl rfl (by simp [EventLoop.inLoop, phase_eq]) rfl rfl

/-- The thread `t` is that of the connection `c`, the `k`-th of the pool `p`. -/
structure Serves (C : Codec) (p : Pool) (k : ConnId) (t : SocketThread) (c : Connection) :
    Prop where
  run : (EventLoop.machine C).Run EventLoop.start t.log t.loop
  opener : t.loop.opener = .opened
  mailbox : t.posted = c.mailbox
  running : c.thread = .running ↔ t.loop.inLoop = true
  senders : k ∈ p.users → t.loop.senders = true

theorem serves_opened (C : Codec) (p : Pool) (k : ConnId) :
    Serves C p k opened { mailbox := [], thread := .running } where
  run := Mealy.run_of_exec (show (EventLoop.machine C).exec EventLoop.start
    [.handshake true, .tryRecv] = some (opened.log, opened.loop) from rfl)
  opener := rfl
  mailbox := rfl
  running := ⟨fun _ => rfl, fun _ => rfl⟩
  senders _ := rfl

theorem Serves.mono (h : Serves C p k t c) (husers : k ∈ p'.users → k ∈ p.users) :
    Serves C p' k t c :=
  { h with senders := fun hk => h.senders (husers hk) }

/-- A letter that the pool delivers is accepted by the thread. -/
theorem Serves.post (h : Serves C p k t c) (husers : k ∈ p.users) (hrunning : c.thread = .running)
    (req : SocketRequest) :
    Serves C p k (t.post C req) { c with mailbox := c.mailbox ++ [req] } := by
  have hloop := h.running.mp hrunning
  have hstep : (EventLoop.machine C).step t.loop (.post (t.letter req)) =
      some (.accepted (t.letter req),
        { t.loop.notify with mailbox := t.loop.mailbox ++ [t.letter req] }) := by
    simp only [EventLoop.machine, h.opener, h.senders husers, hloop, if_true]
  have hpost : t.post C req = ⟨t.log ++ [(.post (t.letter req), .accepted (t.letter req))],
      { t.loop.notify with mailbox := t.loop.mailbox ++ [t.letter req] }⟩ := by
    simp only [SocketThread.post, SocketThread.run, hstep, Option.map_some]
  rw [hpost]
  refine ⟨h.run.snoc hstep, h.opener, ?_, hrunning.symm ▸ ⟨fun _ => hloop, fun _ => rfl⟩,
    fun _ => h.senders husers⟩
  rw [posted, EventLoop.accepted_snoc, List.map_append]
  exact congrArg (· ++ [req]) h.mailbox

/-- A step of the thread, which goes on or ends as `endsAs` says. -/
theorem Serves.move {n : Sockets} (h : Serves C n.pool k t c) (hmoves : n.moves k e = true)
    (hrun : t.run C e = some (o, t')) :
    (o.endsAs = none → Serves C n.pool k t' c) ∧
    (∀ how, o.endsAs = some how → c.thread = .running ∧ how ≠ .running ∧
      Serves C n.pool k t' { c with thread := how }) := by
  obtain ⟨⟨o', loop⟩, hstep, heq⟩ := Option.map_eq_some_iff.mp hrun
  cases heq
  have hmoved := moved_of_turn hmoves h.opener (EventLoop.turns_of_step hstep)
  have hmailbox : posted ⟨t.log ++ [(e, o')], loop⟩ = c.mailbox := by
    rw [posted, EventLoop.accepted_snoc, hmoved.accepted, List.append_nil]
    exact h.mailbox
  have hsenders : k ∈ n.pool.users → loop.senders = true := by
    intro hk
    rw [hmoved.senders, h.senders hk]
    rintro rfl
    simp [Sockets.moves, hk] at hmoves
  constructor
  · intro hgoes
    refine ⟨h.run.snoc hstep, hmoved.opener, hmailbox, ?_, hsenders⟩
    rw [hmoved.goes hgoes]
    exact h.running
  · intro how hends
    obtain ⟨hloop, hover, hhow⟩ := hmoved.ends how hends
    refine ⟨h.running.mpr hloop, hhow, h.run.snoc hstep, hmoved.opener, hmailbox, ?_, hsenders⟩
    rw [hover]
    exact ⟨fun heq => absurd heq hhow, nofun⟩

end threads

end SocketThread

/-! ## What the pool reports -/

namespace Pool

/-- The ways the message of a call has gone: one when the call is past that, and none before. -/
def Went (tr : List (PoolEvent × Option PoolEffect)) (i : Nat) (c : Send) : Prop :=
  match c.pc with
  | .returning w => ways i tr = [.enqueued i c.msg w]
  | .done => (∃ w, ways i tr = [.enqueued i c.msg w]) ∨ ways i tr = [.posted i c.msg]
  | _ => ways i tr = []

/-- Of every call, the one way it went, and nothing of others. -/
structure Reported (tr : List (PoolEvent × Option PoolEffect)) (sends : List Send) : Prop where
  went : ∀ (i : Nat) (c : Send), sends[i]? = some c → Went tr i c
  others : ∀ i, sends.length ≤ i → ways i tr = []

section reports
variable {p p' p₀ : Pool} {e : PoolEvent} {o : Option PoolEffect} {k : ConnId}
  {tr : List (PoolEvent × Option PoolEffect)} {sockets : List SocketWorker} {sends : List Send}

theorem Went.congr {tr' : List (PoolEvent × Option PoolEffect)} {i : Nat} {c : Send}
    (h : Went tr i c) (hways : ways i tr' = ways i tr) : Went tr' i c := by
  obtain ⟨msg, pc⟩ := c
  unfold Went at h ⊢
  rw [hways]
  exact h

theorem ways_quiet (ho : o.bind PoolEffect.call = none) (j : Nat) :
    ways j (tr ++ [(e, o)]) = ways j tr := by
  rw [ways_snoc, way_of_ne (by simp [ho])]
  exact List.append_nil _

/-- The `i`-th call moves on, and what is reported is about it. -/
theorem Reported.call (h : Reported tr sends) {i : Nat} {c c' : Send} (hc : sends[i]? = some c)
    (ho : ∀ j, o.bind PoolEffect.call = some j → j = i)
    (hwent : Went tr i c → Went (tr ++ [(e, o)]) i c') :
    Reported (tr ++ [(e, o)]) (sends.set i c') := by
  have hothers : ∀ j, j ≠ i → ways j (tr ++ [(e, o)]) = ways j tr := by
    intro j hj
    rw [ways_snoc, way_of_ne fun heq => hj (ho j heq)]
    exact List.append_nil _
  constructor
  · intro j d hd
    rcases Slots.getElem?_set_cases hd with ⟨rfl, rfl⟩ | ⟨hj, hd⟩
    · exact hwent (h.went _ _ hc)
    · exact (h.went j d hd).congr (hothers j hj)
  · intro j hj
    rw [List.length_set] at hj
    have hne : j ≠ i := Nat.ne_of_gt (Nat.lt_of_lt_of_le (List.getElem?_eq_some_iff.mp hc).1 hj)
    rw [hothers j hne, h.others j hj]

/-- Nothing is reported of any call. -/
theorem Reported.quiet (h : Reported tr sends) (ho : o.bind PoolEffect.call = none) :
    Reported (tr ++ [(e, o)]) sends :=
  ⟨fun j d hd => (h.went j d hd).congr (ways_quiet ho j),
    fun j hj => (ways_quiet ho j).trans (h.others j hj)⟩

theorem Reported.step (h : Reported tr p.sends) (hstep : machine.step p e = some (o, p')) :
    Reported (tr ++ [(e, o)]) p'.sends := by
  have hshift := shift hstep
  generalize p'.sockets = sockets, p'.sends = sends at hshift ⊢
  -- the call goes on without a word
  have hsilent : ∀ {i c c'}, p.sends[i]? = some c → (Went tr i c → Went tr i c') →
      Reported (tr ++ [(e, none)]) (p.sends.set i c') := by
    intro i c c' hc hwent
    exact h.call hc nofun fun hw => (hwent hw).congr (ways_quiet rfl i)
  cases hshift with
  | arrives msg =>
      have hnew := h.others p.sends.length le_rfl
      constructor
      · intro i c hc
        rcases Slots.getElem?_snoc_cases hc with hc | ⟨rfl, rfl⟩
        · exact (h.went i c hc).congr (ways_quiet rfl i)
        · exact (ways_quiet rfl _).trans hnew
      · intro i hi
        rw [List.length_append] at hi
        exact (ways_quiet rfl i).trans (h.others i (Nat.le_of_succ_le hi))
  | finds i msg call free empty => exact hsilent call fun hw => hw
  | pops i msg w rest call free front => exact hsilent call fun hw => hw
  | pushes i msg w call free => exact hsilent call fun hw => Or.inl ⟨w, hw⟩
  | enqueues i msg w call alive =>
      refine h.call call (fun j hj => (Option.some.inj hj).symm) fun hw => ?_
      have hnone : ways i tr = [] := hw
      show ways i (tr ++ [(.call i, _)]) = _
      rw [ways_snoc, hnone]
      simp [PoolEffect.way]
  | drops i msg w call dead =>
      refine h.call call (fun j hj => (Option.some.inj hj).symm) fun hw => ?_
      have hnone : ways i tr = [] := hw
      show ways i (tr ++ [(.call i, _)]) = []
      rw [ways_snoc, hnone]
      rfl
  | posts i msg call =>
      refine h.call call (fun j hj => (Option.some.inj hj).symm) fun hw => Or.inr ?_
      have hnone : ways i tr = [] := hw
      rw [ways_snoc, hnone]
      simp [PoolEffect.way]
  | repairs i w w' e o quiet silent place id host => exact h.quiet silent
  | rests e o quiet silent => exact h.quiet silent

theorem reported_of_run (hrun : machine.Run p₀ tr p) (hnew : p₀.sends = []) :
    Reported tr p.sends :=
  hrun.invariant (I := fun tr (p : Pool) => Reported tr p.sends)
    ⟨fun i c hc => by simp [hnew] at hc, fun _ _ => rfl⟩ fun _ h hstep => h.step hstep

/-- A mailbox gets the texts that are reported for it. -/
theorem textsAt_step (hstep : machine.step p e = some (o, p')) (k : ConnId) :
    p'.textsAt k = p.textsAt k ++ (o.bind (PoolEffect.textOn k)).toList := by
  by_cases hdie : ∃ j how, e = .die j how
  · obtain ⟨j, how, rfl⟩ := hdie
    obtain ⟨q, hq, heq⟩ := Option.map_eq_some_iff.mp hstep
    cases heq
    simp only [dieStep] at hq
    split at hq
    · cases hq
      simp only [textsAt, List.getElem?_modify, Option.bind_none, Option.toList_none,
        List.append_nil]
      by_cases hjk : j = k
      · cases p.connections[k]? <;> simp [hjk]
      · simp [hjk]
    · cases hq
  · have hmails : Mails p o p' := mails (fun j how heq => hdie ⟨j, how, heq⟩) hstep
    cases hmails with
    | nothing connections_eq users silent =>
        rw [silent k, textsAt, connections_eq]
        exact (List.append_nil _).symm
    | letter j req user alive connections_eq users told =>
        rw [told k]
        have htexts : p'.textsAt k = (p.deliver j req).textsAt k := by
          rw [textsAt, textsAt, connections_eq]
        rw [htexts, deliver_texts alive]
        split <;> rfl
    | connection connections_eq users silent =>
        rw [silent k, textsAt, textsAt, connections_eq, Option.toList_none, List.append_nil]
        rcases Nat.lt_trichotomy k p.connections.length with hlt | rfl | hgt
        · rw [List.getElem?_append_left hlt]
        · simp
        · rw [List.getElem?_eq_none (by simp; omega), List.getElem?_eq_none (by omega)]

theorem textsAt_of_run (hrun : machine.Run p₀ tr p) (k : ConnId) :
    p.textsAt k = p₀.textsAt k ++ enqueuedOn k tr := by
  refine hrun.invariant (I := fun tr (p : Pool) =>
    p.textsAt k = p₀.textsAt k ++ enqueuedOn k tr) (List.append_nil _).symm ?_
  intro tr q q' e o _ h hstep
  rw [textsAt_step hstep, h, enqueuedOn_snoc, List.append_assoc]

end reports

end Pool

/-! ## The pool with its threads -/

namespace Sockets

/-- Every connection of the pool has its thread. -/
structure Linked (C : Codec) (n : Sockets) : Prop where
  length : n.threads.length = n.pool.connections.length
  serves : ∀ (k : ConnId) (t : SocketThread) (c : Connection), n.threads[k]? = some t →
    n.pool.connections[k]? = some c → SocketThread.Serves C n.pool k t c

section linked
variable {C : Codec} {n n' : Sockets} {p' : Pool} {o : Option PoolEffect} {e : SocketsEvent}
  {k : ConnId} {t : SocketThread} {c : Connection} {threads : List SocketThread}
  {connections : List Connection} {workers : List SocketWorker} {count : Nat}
  {tr : List (SocketsEvent × Option PoolEffect)}

theorem arrive_getElem? (hc : connections[k]? = some c) :
    (arrive C threads connections)[k]? = some
      ((c.mailbox.drop (threads[k]?.getD .opened).posted.length).foldl (SocketThread.post C)
        (threads[k]?.getD .opened)) := by
  rw [arrive, List.getElem?_mapIdx, hc]
  rfl

theorem linked_start (C : Codec) (workers : List SocketWorker) (count : Nat) :
    Linked C (start workers count) where
  length := by simp [start, Pool.fresh]
  serves k t c ht hc := by
    obtain rfl := List.eq_of_mem_replicate (List.mem_of_getElem? ht)
    obtain rfl := List.eq_of_mem_replicate (List.mem_of_getElem? hc)
    exact SocketThread.serves_opened C _ k

theorem Linked.exists_thread (h : Linked C n) (hc : n.pool.connections[k]? = some c) :
    ∃ t, n.threads[k]? = some t ∧ SocketThread.Serves C n.pool k t c := by
  have hlt := (List.getElem?_eq_some_iff.mp hc).1
  rw [← h.length] at hlt
  exact ⟨_, List.getElem?_eq_getElem hlt, h.serves k _ c (List.getElem?_eq_getElem hlt) hc⟩

/-- Where no letter comes, the thread stays. -/
theorem Linked.arrive_same (h : Linked C n) (hc : n.pool.connections[k]? = some c)
    (hc' : connections[k]? = some c) : ∃ t, (arrive C n.threads connections)[k]? = some t ∧
      SocketThread.Serves C n.pool k t c := by
  obtain ⟨t, ht, hserves⟩ := h.exists_thread hc
  refine ⟨t, ?_, hserves⟩
  rw [arrive_getElem? hc', ht, Option.getD_some, hserves.mailbox, List.drop_length]
  rfl

/-- What a step of the pool puts into a mailbox arrives at its thread. -/
theorem Linked.client (h : Linked C n) (hmails : Pool.Mails n.pool o p') :
    Linked C { pool := p', threads := arrive C n.threads p'.connections } := by
  have hthreads : ∀ k c', p'.connections[k]? = some c' →
      ∃ t, (arrive C n.threads p'.connections)[k]? = some t ∧
        SocketThread.Serves C p' k t c' := by
    intro k c' hc'
    cases hmails with
    | nothing connections_eq users silent =>
        obtain ⟨t, ht, hserves⟩ := h.arrive_same (connections_eq ▸ hc') hc'
        exact ⟨t, ht, hserves.mono fun hk => users hk⟩
    | letter j req user alive connections_eq users told =>
        have hmodify := hc'
        rw [connections_eq, Pool.deliver, List.getElem?_modify] at hmodify
        obtain ⟨c, hc, hchange⟩ := Option.map_eq_some_iff.mp hmodify
        by_cases hjk : j = k
        · -- the letter is for this thread
          subst hjk
          obtain rfl : { c with mailbox := c.mailbox ++ [req] } = c' := by simpa using hchange
          obtain ⟨t, ht, hserves⟩ := h.exists_thread hc
          have hrunning : c.thread = .running := by simpa [Pool.accepts, hc] using alive
          refine ⟨t.post C req, ?_, (hserves.post user hrunning req).mono fun hk => users hk⟩
          rw [arrive_getElem? hc', ht, Option.getD_some, hserves.mailbox, List.drop_left]
          rfl
        · obtain rfl : c = c' := by simpa [hjk] using hchange
          obtain ⟨t, ht, hserves⟩ := h.arrive_same hc hc'
          exact ⟨t, ht, hserves.mono fun hk => users hk⟩
    | connection connections_eq users silent =>
        have hnew := hc'
        rw [connections_eq] at hnew
        rcases Slots.getElem?_snoc_cases hnew with hc | ⟨rfl, rfl⟩
        · obtain ⟨t, ht, hserves⟩ := h.arrive_same hc hc'
          have hlt := (List.getElem?_eq_some_iff.mp hc).1
          refine ⟨t, ht, hserves.mono fun hk => ?_⟩
          exact (List.mem_cons.mp (users hk)).resolve_left (Nat.ne_of_lt hlt)
        · refine ⟨.opened, ?_, SocketThread.serves_opened C p' _⟩
          rw [arrive_getElem? hc', List.getElem?_eq_none (by rw [h.length]), Option.getD_none]
          rfl
  refine ⟨by simp [arrive], ?_⟩
  intro k t c ht hc
  obtain ⟨t', ht', hserves⟩ := hthreads k c hc
  obtain rfl := Option.some.inj (ht.symm.trans ht')
  exact hserves

/-- The thread of `k` goes on, or its connection with it. -/
theorem Linked.thread (h : Linked C n) {connections : List Connection}
    (hlen : connections.length = n.pool.connections.length)
    (hconnections : ∀ j c, j ≠ k → connections[j]? = some c → n.pool.connections[j]? = some c)
    (hserves : ∀ c, connections[k]? = some c → SocketThread.Serves C n.pool k t c) :
    Linked C { pool := { n.pool with connections }, threads := n.threads.set k t } := by
  refine ⟨by rw [List.length_set, h.length, hlen], ?_⟩
  intro j t' c ht hc
  rcases Slots.getElem?_set_cases ht with ⟨rfl, rfl⟩ | ⟨hj, ht⟩
  · exact (hserves c hc).mono fun hk => hk
  · exact (h.serves j t' c ht (hconnections j c hj hc)).mono fun hk => hk

/-- A step of a caller is one of the pool, and its letters arrive at the threads. -/
theorem client_step {e : PoolEvent} (hstep : (machine C).step n (.client e) = some (o, n')) :
    (∀ k how, e ≠ .die k how) ∧ ∃ p', Pool.machine.step n.pool e = some (o, p') ∧
      n' = { pool := p', threads := arrive C n.threads p'.connections } := by
  cases e with
  | die k how => cases hstep
  | _ =>
      refine ⟨nofun, ?_⟩
      simp only [machine] at hstep
      obtain ⟨⟨o, p'⟩, hp, heq⟩ := Option.map_eq_some_iff.mp hstep
      cases heq
      exact ⟨p', hp, rfl⟩

/-- A step of a thread, in which its connection may end. -/
theorem thread_step {e : LoopEvent} (hstep : (machine C).step n (.thread k e) = some (o, n')) :
    n.moves k e = true ∧ o = none ∧ ∃ t effect t', n.threads[k]? = some t ∧
      t.run C e = some (effect, t') ∧ n'.threads = n.threads.set k t' ∧
      (effect.endsAs = none ∧ n'.pool = n.pool ∨
        ∃ how, effect.endsAs = some how ∧ n.pool.dieStep k how = some n'.pool) := by
  simp only [machine] at hstep
  split at hstep
  · next hmoves =>
      obtain ⟨t, ht, hstep⟩ := Option.bind_eq_some_iff.mp hstep
      obtain ⟨⟨effect, t'⟩, hrun, hstep⟩ := Option.bind_eq_some_iff.mp hstep
      cases hends : effect.endsAs with
      | none =>
          simp only [hends, Option.some.injEq, Prod.mk.injEq] at hstep
          obtain ⟨rfl, rfl⟩ := hstep
          exact ⟨hmoves, rfl, t, effect, t', ht, hrun, rfl, Or.inl ⟨hends, rfl⟩⟩
      | some how =>
          simp only [hends] at hstep
          obtain ⟨p', hdie, heq⟩ := Option.map_eq_some_iff.mp hstep
          cases heq
          exact ⟨hmoves, rfl, t, effect, t', ht, hrun, rfl, Or.inr ⟨how, hends, hdie⟩⟩
  · cases hstep

/-- A step of the pool with its threads is a step of the pool, or none. -/
theorem Linked.step (h : Linked C n) (hstep : (machine C).step n e = some (o, n')) :
    Linked C n' ∧ ∃ more, Pool.machine.Run n.pool more n'.pool ∧
      more.flatMap (·.2.toList) = o.toList := by
  cases e with
  | client e =>
      obtain ⟨hdie, p', hp, rfl⟩ := client_step hstep
      exact ⟨h.client (Pool.mails hdie hp), _, Mealy.Run.single hp, by simp⟩
  | thread k e =>
      obtain ⟨hmoves, rfl, t, effect, t', ht, hrun, hthreads, hpool⟩ := thread_step hstep
      obtain ⟨pool, threads⟩ := n'
      obtain rfl : threads = n.threads.set k t' := hthreads
      rcases hpool with ⟨hgoes, rfl⟩ | ⟨how, hends, hdie⟩
      · refine ⟨h.thread rfl (fun _ _ _ hc => hc) fun c hc => ?_, [], .nil, rfl⟩
        exact ((h.serves k t c ht hc).move hmoves hrun).1 hgoes
      · have hmachine : Pool.machine.step n.pool (.die k how) = some (none, pool) := by
          simp only [Pool.machine, hdie, Option.map_some]
        refine ⟨?_, _, Mealy.Run.single hmachine, rfl⟩
        simp only [Pool.dieStep] at hdie
        split at hdie
        · cases hdie
          refine h.thread (List.length_modify _ _ _) ?_ ?_
          · intro j c hj hc
            simpa [List.getElem?_modify, Ne.symm hj] using hc
          · intro c' hc'
            rw [List.getElem?_modify_eq] at hc'
            obtain ⟨c, hc, rfl⟩ := Option.map_eq_some_iff.mp hc'
            exact (((h.serves k t c ht hc).move hmoves hrun).2 how hends).2.2
        · cases hdie

/-- The pool with its threads does what the pool does. -/
theorem simulation (C : Codec) : Mealy.Simulation (machine C) Pool.machine
    (fun e => e.2.toList) (fun e => e.2.toList) (fun _ _ => True)
    (fun _ n _ p => p = n.pool ∧ Linked C n) where
  step := by
    rintro tr n n' tr' p e o ⟨rfl, hlinked⟩ _ hstep
    obtain ⟨hlinked', more, hrun, hview⟩ := hlinked.step hstep
    exact ⟨more, n'.pool, hrun, hview, rfl, hlinked'⟩

/-- The effects reported along a trace. -/
def effects (tr : List (SocketsEvent × Option PoolEffect)) : List PoolEffect :=
  tr.flatMap (·.2.toList)

theorem linked_of_run (hrun : (machine C).Run (start workers count) tr n) :
    Linked C n ∧ ∃ tr', Pool.machine.Run (start workers count).pool tr' n.pool ∧
      Pool.effects tr' = effects tr := by
  obtain ⟨tr', p, hpool, hview, rfl, hlinked⟩ :=
    (simulation C).run ⟨rfl, linked_start C workers count⟩ hrun
      (Mealy.along_of_forall fun _ _ _ => trivial)
  refine ⟨hlinked, tr', hpool, ?_⟩
  rw [Pool.effects, List.filterMap_eq_flatMap_toList]
  exact hview

/-- **The threads carry out what the pool promises.**  In every run of the pool with its threads,
the pool does what `Pool.machine` can do, with the same effects; the thread of each connection
does what `EventLoop.machine` can do, its letters are those of the mailbox, and a connection takes
letters exactly as long as its thread is in the loop. -/
theorem threads_carry_out (hrun : (machine C).Run (start workers count) tr n) :
    (∃ tr', Pool.machine.Run (start workers count).pool tr' n.pool ∧
      Pool.effects tr' = effects tr) ∧
    ∀ (k : ConnId) (c : Connection), n.pool.connections[k]? = some c →
      ∃ t, n.threads[k]? = some t ∧ (EventLoop.machine C).Run EventLoop.start t.log t.loop ∧
        t.posted = c.mailbox ∧ (n.pool.accepts k = true ↔ t.loop.inLoop = true) := by
  obtain ⟨hlinked, hpool⟩ := linked_of_run hrun
  refine ⟨hpool, ?_⟩
  intro k c hc
  obtain ⟨t, ht, hserves⟩ := hlinked.exists_thread hc
  refine ⟨t, ht, hserves.run, hserves.mailbox, ?_⟩
  rw [Pool.accepts, hc, ← hserves.running]
  exact decide_eq_true_iff

/-- The ways the message of the `i`-th call went along a trace. -/
def ways (i : Nat) (tr : List (SocketsEvent × Option PoolEffect)) : List PoolEffect :=
  (effects tr).filterMap (PoolEffect.way i)

/-- The texts sent on the connection `k` along a trace, in order. -/
def sentOn (k : ConnId) (tr : List (SocketsEvent × Option PoolEffect)) : List String :=
  (effects tr).filterMap (PoolEffect.textOn k)

theorem textsWritten_eq {taken left : List Letter}
    (h : EventLoop.Ledger t.log t.loop taken left) :
    t.textsWritten = taken.filterMap fun m => m.1.text? := by
  rw [SocketThread.textsWritten, h.written, List.filterMap_filterMap]
  refine congrArg (List.filterMap · taken) (funext ?_)
  rintro ⟨req, reply⟩
  cases req <;> rfl

/-- What a thread has written and what it has not, of what was sent on its connection. -/
theorem Linked.texts (h : Linked C n) (hsent : n.pool.textsAt k = sentOn k tr)
    (hc : n.pool.connections[k]? = some c) :
    ∃ t unread, n.threads[k]? = some t ∧ t.textsWritten ++ unread = sentOn k tr ∧
      (t.loop.inLoop = true → unread = t.loop.mailbox.filterMap fun m => m.1.text?) ∧
      (t.loop.phase = .ended .hungUp → unread = []) := by
  obtain ⟨t, ht, hserves⟩ := h.exists_thread hc
  obtain ⟨_, _, taken, left, hledger⟩ := EventLoop.ledger_of_run hserves.run
  refine ⟨t, left.filterMap fun m => m.1.text?, ht, ?_, ?_, ?_⟩
  · have hmailbox : n.pool.textsAt k = c.mailbox.filterMap SocketRequest.text? := by
      rw [Pool.textsAt, hc]
    rw [← hsent, hmailbox, textsWritten_eq hledger, ← List.filterMap_append, ← hledger.accepted,
      ← hserves.mailbox, SocketThread.posted, List.filterMap_map]
    rfl
  · intro hloop
    rw [(hledger.unread ?_).1]
    intro exit hexit
    rw [EventLoop.inLoop, hexit] at hloop
    cases hloop
  · intro hexit
    rw [hledger.hungUp hexit]
    rfl

/-- The mailboxes hold what was sent. -/
theorem textsAt_of_effects {tr' : List (PoolEvent × Option PoolEffect)}
    (hpool : Pool.machine.Run (start workers count).pool tr' n.pool)
    (heffects : Pool.effects tr' = effects tr) (k : ConnId) : n.pool.textsAt k = sentOn k tr := by
  have hstart : (start workers count).pool.textsAt k = [] := by
    have hconnections : (start workers count).pool.connections[k]? =
        if k < count then some { mailbox := [], thread := .running } else none :=
      List.getElem?_replicate
    rw [Pool.textsAt, hconnections]
    by_cases hk : k < count
    · simp [hk]
    · simp [hk]
  rw [Pool.textsAt_of_run hpool, hstart, List.nil_append, sentOn, ← heffects, Pool.effects,
    List.filterMap_filterMap, Pool.enqueuedOn]

/-- **A text goes one way, and on a socket it is written once, in its turn.**  A call of `send`
that has returned put its message into one mailbox, or posted it over HTTP, and not both.  What a
thread has written to its socket, followed by what it has not read, are the texts that were sent
on its connection, in order; while the thread is in its loop the latter are in its mailbox, and a
thread that ended because its senders were gone has left none. -/
theorem sent_once (hrun : (machine C).Run (start workers count) tr n) :
    (∀ (i : Nat) (c : Send), n.pool.sends[i]? = some c → c.pc = .done →
      (∃ w, ways i tr = [.enqueued i c.msg w]) ∨ ways i tr = [.posted i c.msg]) ∧
    ∀ (k : ConnId) (c : Connection), n.pool.connections[k]? = some c →
      ∃ t unread, n.threads[k]? = some t ∧ t.textsWritten ++ unread = sentOn k tr ∧
        (t.loop.inLoop = true → unread = t.loop.mailbox.filterMap fun m => m.1.text?) ∧
        (t.loop.phase = .ended .hungUp → unread = []) := by
  obtain ⟨hlinked, tr', hpool, heffects⟩ := linked_of_run hrun
  refine ⟨?_, fun k c hc => hlinked.texts (textsAt_of_effects hpool heffects k) hc⟩
  intro i c hc hdone
  have hways : Pool.ways i tr' = ways i tr := by
    rw [ways, ← heffects, Pool.effects, List.filterMap_filterMap, Pool.ways]
  have hwent := (Pool.reported_of_run hpool rfl).went i c hc
  rw [Pool.Went, hdone, hways] at hwent
  exact hwent

end linked

/-- A text is sent and written, and another lies in the mailbox behind a ping. -/
def textPingText : List SocketsEvent :=
  [.client (.send "0x1"), .client (.call 0), .client (.call 0), .client (.call 0),
   .thread 0 (.work (.error .wouldBlock)), .client (.sentinel false), .client (.sentinel false),
   .thread 0 (.work (.error .wouldBlock)), .client (.sentinel true), .client (.sentinel false),
   .client (.send "0x2"), .client (.call 1), .client (.call 1), .client (.call 1)]

theorem ping_answered_by_thread : ∃ tr n,
    (machine Client.updateCodec).Run (start [Pool.soleWorker] 1) tr n ∧
    tr.map Prod.fst = textPingText ∧
    (∃ tr', Pool.machine.Run (start [Pool.soleWorker] 1).pool tr' n.pool ∧
      Pool.effects tr' = effects tr) ∧
    ∃ t, n.threads[0]? = some t ∧ EventLoop.replied t.log = [1] ∧
      (n.pool.accepts 0 = true ↔ t.loop.inLoop = true) := by
  have hrun : (machine Client.updateCodec).Run (start [Pool.soleWorker] 1) _ _ :=
    Mealy.run_of_exec (show (machine Client.updateCodec).exec (start [Pool.soleWorker] 1)
      textPingText = some (_, _) from rfl)
  obtain ⟨hpool, hthreads⟩ := threads_carry_out hrun
  obtain ⟨t, ht, _, _, haccepts⟩ := hthreads 0 _ rfl
  obtain rfl := Option.some.inj ht
  exact ⟨_, _, hrun, rfl, hpool, _, rfl, rfl, haccepts⟩

theorem second_text_unread : ∃ tr n,
    (machine Client.updateCodec).Run (start [Pool.soleWorker] 1) tr n ∧
    tr.map Prod.fst = textPingText ∧
    ((∃ w, ways 1 tr = [.enqueued 1 "0x2" w]) ∨ ways 1 tr = [.posted 1 "0x2"]) ∧
    ∃ t unread, n.threads[0]? = some t ∧ t.textsWritten ++ unread = ["0x1", "0x2"] ∧
      unread = ["0x2"] := by
  have hrun : (machine Client.updateCodec).Run (start [Pool.soleWorker] 1) _ _ :=
    Mealy.run_of_exec (show (machine Client.updateCodec).exec (start [Pool.soleWorker] 1)
      textPingText = some (_, _) from rfl)
  obtain ⟨hways, htexts⟩ := sent_once hrun
  obtain ⟨t, unread, ht, hsent, hunread, _⟩ := htexts 0 _ rfl
  refine ⟨_, _, hrun, rfl, hways 1 _ rfl rfl, t, unread, ht, hsent, ?_⟩
  obtain rfl := Option.some.inj ht
  exact hunread rfl

end Sockets

end Ethereyum
