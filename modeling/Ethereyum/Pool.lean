/-
# `Pool` — the deque of socket workers, and who takes from it

`Client::send` checks a worker out of the shared deque, sends on it and puts it
back, in three steps that take the lock of the deque twice.  The sentinel holds
that lock for a whole pass, in which it pings the workers and reconnects those
that do not answer; `Client::stop` holds it while it stops them one after the
other.  A worker's thread may end at any time, and then its mailbox is gone.

    send        start → holding → returning → done
                start → posting → done           the deque was empty
                holding → posting → done         the worker was dead; it is dropped
    sentinel    asleep → (pass → pinged)* → asleep, with a reconnection for a worker
                that is dead
    stop        idle → (stopping → joining)* → returned, or returned with an error
                at the first worker that is dead

`Shift` says once what a step can do to the deque and to the calls of `send`.
-/
import Ethereyum.Lib.Mealy
import Ethereyum.Lib.Slots

namespace Ethereyum

/-! ## Workers and their connections -/

/-- `SocketRequest`, without the sending ends of its reply channels. -/
inductive SocketRequest where
  | text (s : String)
  | binary (bytes : List UInt8)
  | connectedStatus
  | ping
  | pong
  | stop
  deriving DecidableEq

inductive ThreadState where
  | running
  | ended
  | panicked
  deriving DecidableEq

/-- What `SocketWorker::connect` makes: a mailbox, with all it ever took, and the
thread that reads it.  The receiving end goes with the thread. -/
structure Connection where
  mailbox : List SocketRequest
  thread : ThreadState

/-- A connection, by its place among those made so far. -/
abbrev ConnId := Nat

/-- `SocketWorker`; its sender and its join handle are those of a connection. -/
structure SocketWorker where
  id : Nat
  host : String
  tx : ConnId
  thread : Option ConnId
  deriving DecidableEq

/-! ## The parties -/

/-- How far a call of `Client::send` has got. -/
inductive SendPc where
  | start
  | holding (worker : SocketWorker)
  | returning (worker : SocketWorker)
  | posting
  | done

/-- A call of `Client::send` with a text. -/
structure Send where
  msg : String
  pc : SendPc

/-- The worker a call has checked out. -/
def Send.worker (c : Send) : Option SocketWorker :=
  match c.pc with
  | .holding w => some w
  | .returning w => some w
  | _ => none

/-- How far the sentinel has got with a worker. -/
inductive SentinelPc where
  | pinging
  /-- it waits for the pong -/
  | pinged
  /-- `reconnect`, before `is_connected` -/
  | reconnecting
  /-- it waits for the status -/
  | asked
  /-- it waits for the new connection -/
  | connecting
  /-- the loop of `reconnect`, before `is_connected` -/
  | checking
  /-- it waits for the status of the new connection -/
  | askedAgain

/-- The thread of `with_sentinel`. -/
inductive Sentinel where
  | asleep
  /-- it is at the `i`-th worker, and holds the lock of the deque -/
  | visiting (i : Nat) (pc : SentinelPc)
  | panicked

def Sentinel.holds : Sentinel → Bool
  | .visiting _ _ => true
  | _ => false

/-- How far a call of `Client::stop` has got. -/
inductive Stop where
  | idle
  | stopping (i : Nat)
  /-- it joins the thread of the connection `k` -/
  | joining (i : Nat) (k : ConnId)
  | returned (ok : Bool)
  | panicked

/-- The call is in its loop and holds the lock of the deque. -/
def Stop.holds : Stop → Bool
  | .stopping _ => true
  | .joining _ _ => true
  | _ => false

structure Pool where
  sockets : List SocketWorker
  connections : List Connection
  sends : List Send
  sentinel : Sentinel
  stop : Stop

/-- What a step is reported as. -/
inductive PoolEffect where
  | enqueued (call : Nat) (msg : String) (worker : SocketWorker)
  | refused (call : Nat) (worker : SocketWorker)
  | posted (call : Nat) (msg : String)
  /-- `Stop` was sent to the worker at `i` -/
  | stopSent (i : Nat)
  | stopReturned (ok : Bool)

/-- The call of `send` an effect is about. -/
def PoolEffect.call : PoolEffect → Option Nat
  | .enqueued i _ _ => some i
  | .refused i _ => some i
  | .posted i _ => some i
  | _ => none

inductive PoolEvent where
  /-- somebody calls `send` -/
  | send (msg : String)
  /-- the next step of the `i`-th call of `send` -/
  | call (i : Nat)
  /-- somebody calls `stop` and gets the lock -/
  | stop
  /-- the next step of that call -/
  | stopNext
  /-- the next step of the sentinel; where it waits, `outcome` says whether what
  it waits for came -/
  | sentinel (outcome : Bool)
  /-- the thread of the connection `k` is over -/
  | die (k : ConnId) (how : ThreadState)

/-- No step of a call of `send`. -/
def PoolEvent.quiet : PoolEvent → Bool
  | .send _ => false
  | .call _ => false
  | _ => true

namespace Pool

/-! ## The steps -/

/-- Whether `unbounded_send` succeeds. -/
def accepts (p : Pool) (k : ConnId) : Bool :=
  match p.connections[k]? with
  | some c => decide (c.thread = .running)
  | none => false

/-- `SocketWorker::send_request` to a mailbox that accepts. -/
def deliver (p : Pool) (k : ConnId) (req : SocketRequest) : Pool :=
  { p with connections := p.connections.modify k fun c => { c with mailbox := c.mailbox ++ [req] } }

def setWorker (p : Pool) (i : Nat) (w : SocketWorker) : Pool :=
  { p with sockets := p.sockets.set i w }

/-- Somebody is in a loop over the deque. -/
def locked (p : Pool) : Bool := p.sentinel.holds || p.stop.holds

/-- The steps of `Client::send`. -/
def sendStep (p : Pool) (i : Nat) (c : Send) : Option (Option PoolEffect × Pool) :=
  match c.pc with
  | .start =>
      if p.locked then none
      else
        match p.sockets with
        | [] => some (none, { p with sends := p.sends.set i { c with pc := .posting } })
        | w :: rest =>
            some (none, { p with
              sockets := rest, sends := p.sends.set i { c with pc := .holding w } })
  | .holding w =>
      if p.accepts w.tx then
        some (some (.enqueued i c.msg w), { p.deliver w.tx (.text c.msg) with
          sends := p.sends.set i { c with pc := .returning w } })
      else
        -- the worker goes out of scope
        some (some (.refused i w), { p with sends := p.sends.set i { c with pc := .posting } })
  | .returning w =>
      if p.locked then none
      else
        some (none, { p with
          sockets := p.sockets ++ [w], sends := p.sends.set i { c with pc := .done } })
  | .posting =>
      some (some (.posted i c.msg), { p with sends := p.sends.set i { c with pc := .done } })
  | .done => none

/-- The question of `SocketWorker::is_connected`, or `none` when the answer is no
without asking. -/
def askStatus (p : Pool) (w : SocketWorker) : Option Pool :=
  if w.thread.isSome && p.accepts w.tx then some (p.deliver w.tx .connectedStatus) else none

/-- The body of the loop of `with_sentinel`, for the worker `w` at `i`; `reconnect` is
part of it. -/
def visit (p : Pool) (outcome : Bool) (i : Nat) (w : SocketWorker) : SentinelPc → Option Pool
  | .pinging =>
      if p.accepts w.tx then some { p.deliver w.tx .ping with sentinel := .visiting i .pinged }
      else some { p with sentinel := .visiting i .reconnecting }
  | .pinged =>
      if outcome then some { p with sentinel := .visiting (i + 1) .pinging }
      else if p.accepts w.tx then none
      else some { p with sentinel := .visiting i .reconnecting }
  | .reconnecting =>
      match p.askStatus w with
      | some p' => some { p' with sentinel := .visiting i .asked }
      | none =>
          some { p.setWorker i { w with thread := none } with sentinel := .visiting i .connecting }
  | .asked =>
      if outcome then some { p with sentinel := .visiting (i + 1) .pinging }
      else if p.accepts w.tx then none
      else some { p with sentinel := .panicked }
  | .connecting =>
      if outcome then
        some { p.setWorker i { w with
            tx := p.connections.length, thread := some p.connections.length } with
          connections := p.connections ++ [{ mailbox := [], thread := .running }]
          sentinel := .visiting i .checking }
      else some { p with sentinel := .visiting (i + 1) .pinging }
  | .checking =>
      -- without `outcome` the time is up
      if outcome then
        match p.askStatus w with
        | some p' => some { p' with sentinel := .visiting i .askedAgain }
        | none => some p
      else some { p with sentinel := .visiting (i + 1) .pinging }
  | .askedAgain =>
      if outcome then some { p with sentinel := .visiting (i + 1) .pinging }
      else if p.accepts w.tx then none
      else some { p with sentinel := .panicked }

def sentinelStep (p : Pool) (outcome : Bool) : Option Pool :=
  match p.sentinel with
  | .asleep => if p.stop.holds then none else some { p with sentinel := .visiting 0 .pinging }
  | .visiting i pc =>
      match p.sockets[i]? with
      | none => some { p with sentinel := .asleep }
      | some w => p.visit outcome i w pc
  | .panicked => none

/-- The steps of `Client::stop` and of `SocketWorker::stop`, under the lock. -/
def stopStep (p : Pool) : Option (Option PoolEffect × Pool) :=
  match p.stop with
  | .stopping i =>
      match p.sockets[i]? with
      | none => some (some (.stopReturned true), { p with stop := .returned true })
      | some w =>
          if p.accepts w.tx then
            match w.thread with
            | none => some (some (.stopSent i), { p.deliver w.tx .stop with stop := .panicked })
            | some k =>
                some (some (.stopSent i), { (p.deliver w.tx .stop).setWorker i
                  { w with thread := none } with stop := .joining i k })
          else some (some (.stopReturned false), { p with stop := .returned false })
  | .joining i k =>
      match p.connections[k]? with
      | none => none
      | some c =>
          match c.thread with
          | .running => none
          | .ended => some (none, { p with stop := .stopping (i + 1) })
          | .panicked => some (none, { p with stop := .panicked })
  | _ => none

/-- The end of a thread; what is left in the mailbox is lost with it. -/
def dieStep (p : Pool) (k : ConnId) (how : ThreadState) : Option Pool :=
  if p.accepts k && decide (how ≠ .running) then
    some { p with connections := p.connections.modify k fun c => { c with thread := how } }
  else none

/-- The pool as a machine. -/
def machine : Mealy Pool PoolEvent (Option PoolEffect) where
  step p
    | .send msg => some (none, { p with sends := p.sends ++ [{ msg, pc := .start }] })
    | .call i => p.sends[i]?.bind (p.sendStep i)
    | .stop => if p.locked then none else some (none, { p with stop := .stopping 0 })
    | .stopNext => p.stopStep
    | .sentinel outcome => (p.sentinelStep outcome).map fun p' => (none, p')
    | .die k how => (p.dieStep k how).map fun p' => (none, p')

/-- The pool of `Client::new` with these workers: nobody has called anything yet. -/
def fresh (workers : List SocketWorker) (connections : List Connection) : Pool :=
  { sockets := workers, connections, sends := [], sentinel := .asleep, stop := .idle }

/-! ## What the sentinel does -/

/-- The threads of the connections. -/
def threads (p : Pool) : List ThreadState := p.connections.map (·.thread)

section frames
variable {p p' : Pool}

theorem accepts_iff {k : ConnId} : p.accepts k = true ↔ p.threads[k]? = some .running := by
  cases hk : p.connections[k]? with
  | none => simp [accepts, threads, hk]
  | some c => simp [accepts, threads, hk]

/-- Only the threads matter. -/
theorem accepts_congr (h : p'.threads = p.threads) (k : ConnId) : p'.accepts k = p.accepts k := by
  rw [Bool.eq_iff_iff, accepts_iff, accepts_iff, h]

@[simp] theorem deliver_threads (k : ConnId) (req : SocketRequest) :
    (p.deliver k req).threads = p.threads := by
  refine List.ext_getElem? ?_
  intro i
  simp only [threads, deliver, List.getElem?_map, List.getElem?_modify]
  by_cases hi : k = i
  · cases p.connections[i]? <;> simp [hi]
  · simp [hi]

theorem askStatus_eq_some {w : SocketWorker} (h : p.askStatus w = some p') :
    p' = p.deliver w.tx .connectedStatus := by
  simp only [askStatus] at h
  split at h
  · exact (Option.some.inj h).symm
  · cases h

/-- What a step of the sentinel leaves of deque and threads: it takes the join handle of a
worker, or gives it a new connection, or moves on. -/
inductive Visited (p : Pool) (outcome : Bool) : List SocketWorker → List ThreadState → Prop
  | same : Visited p outcome p.sockets p.threads
  | unthreads (i : Nat) (w : SocketWorker) (pc_eq : p.sentinel = .visiting i .reconnecting)
      (place : p.sockets[i]? = some w) (away : p.askStatus w = none) :
      Visited p outcome (p.sockets.set i { w with thread := none }) p.threads
  | connects (i : Nat) (w : SocketWorker) (pc_eq : p.sentinel = .visiting i .connecting)
      (place : p.sockets[i]? = some w) (outcome_eq : outcome = true) :
      Visited p outcome (p.sockets.set i { w with
          tx := p.connections.length, thread := some p.connections.length })
        (p.threads ++ [.running])

/-- Putting a message into a mailbox changes neither. -/
theorem Visited.deliver {outcome : Bool} (k : ConnId) (req : SocketRequest) :
    Visited p outcome p.sockets (p.deliver k req).threads := by
  rw [deliver_threads]
  exact .same

/-- A wait for a reply moves the sentinel and nothing else. -/
theorem sentinel_of_awaited {outcome : Bool} {k : ConnId} {there gone : Sentinel}
    (h : (if outcome then some { p with sentinel := there }
      else if p.accepts k then none else some { p with sentinel := gone }) = some p') :
    ∃ sentinel, p' = { p with sentinel } := by
  split at h
  · exact ⟨there, (Option.some.inj h).symm⟩
  · split at h
    · cases h
    · exact ⟨gone, (Option.some.inj h).symm⟩

theorem visit_cases {outcome : Bool} {i : Nat} {w : SocketWorker} {pc : SentinelPc}
    (hpc : p.sentinel = .visiting i pc) (hw : p.sockets[i]? = some w)
    (h : p.visit outcome i w pc = some p') :
    p'.sends = p.sends ∧ p'.stop = p.stop ∧ Visited p outcome p'.sockets p'.threads := by
  cases pc with
  | pinging =>
      simp only [visit] at h
      split at h
      · obtain rfl := Option.some.inj h
        exact ⟨rfl, rfl, .deliver w.tx .ping⟩
      · obtain rfl := Option.some.inj h
        exact ⟨rfl, rfl, .same⟩
  | pinged =>
      obtain ⟨_, rfl⟩ := sentinel_of_awaited h
      exact ⟨rfl, rfl, .same⟩
  | reconnecting =>
      cases hask : p.askStatus w with
      | none =>
          simp only [visit, hask, Option.some.injEq] at h
          subst h
          exact ⟨rfl, rfl, .unthreads i w hpc hw hask⟩
      | some q =>
          simp only [visit, hask, Option.some.injEq] at h
          obtain rfl := askStatus_eq_some hask
          subst h
          exact ⟨rfl, rfl, .deliver w.tx .connectedStatus⟩
  | asked =>
      obtain ⟨_, rfl⟩ := sentinel_of_awaited h
      exact ⟨rfl, rfl, .same⟩
  | connecting =>
      cases outcome with
      | true =>
          obtain rfl := Option.some.inj h
          refine ⟨rfl, rfl, ?_⟩
          have hconnects := Visited.connects i w hpc hw (rfl : true = true)
          have hthreads : p.threads ++ [.running] = (p.connections ++
              [({ mailbox := [], thread := .running } : Connection)]).map (·.thread) := by
            simp [threads]
          rw [hthreads] at hconnects
          exact hconnects
      | false =>
          obtain rfl := Option.some.inj h
          exact ⟨rfl, rfl, .same⟩
  | checking =>
      cases outcome with
      | false =>
          obtain rfl := Option.some.inj h
          exact ⟨rfl, rfl, .same⟩
      | true =>
          cases hask : p.askStatus w with
          | none =>
              simp only [visit, hask, if_true, Option.some.injEq] at h
              subst h
              exact ⟨rfl, rfl, .same⟩
          | some q =>
              simp only [visit, hask, if_true, Option.some.injEq] at h
              obtain rfl := askStatus_eq_some hask
              subst h
              exact ⟨rfl, rfl, .deliver w.tx .connectedStatus⟩
  | askedAgain =>
      obtain ⟨_, rfl⟩ := sentinel_of_awaited h
      exact ⟨rfl, rfl, .same⟩

theorem sentinelStep_cases {outcome : Bool} (h : p.sentinelStep outcome = some p') :
    p'.sends = p.sends ∧ p'.stop = p.stop ∧ Visited p outcome p'.sockets p'.threads := by
  simp only [sentinelStep] at h
  split at h
  · split at h
    · cases h
    · obtain rfl := Option.some.inj h
      exact ⟨rfl, rfl, .same⟩
  · rename_i i pc hpc
    split at h
    · obtain rfl := Option.some.inj h
      exact ⟨rfl, rfl, .same⟩
    · rename_i w hw
      exact visit_cases hpc hw h
  · cases h

end frames

/-! ## What a call of `stop` does -/

/-- `Stopping p o p'`: the call of `stop` takes `p` to `p'` and reports `o`. -/
inductive Stopping (p : Pool) : Option PoolEffect → Pool → Prop
  | completes (i : Nat) (pc_eq : p.stop = .stopping i) (past : p.sockets[i]? = none) :
      Stopping p (some (.stopReturned true)) { p with stop := .returned true }
  | fails (i : Nat) (w : SocketWorker) (pc_eq : p.stop = .stopping i)
      (place : p.sockets[i]? = some w) (dead : p.accepts w.tx = false) :
      Stopping p (some (.stopReturned false)) { p with stop := .returned false }
  | stops (i : Nat) (w : SocketWorker) (k : ConnId) (pc_eq : p.stop = .stopping i)
      (place : p.sockets[i]? = some w) (alive : p.accepts w.tx = true)
      (thread : w.thread = some k) :
      Stopping p (some (.stopSent i)) { (p.deliver w.tx .stop).setWorker i
        { w with thread := none } with stop := .joining i k }
  | stopsAgain (i : Nat) (w : SocketWorker) (pc_eq : p.stop = .stopping i)
      (place : p.sockets[i]? = some w) (alive : p.accepts w.tx = true)
      (thread : w.thread = none) :
      Stopping p (some (.stopSent i)) { p.deliver w.tx .stop with stop := .panicked }
  | joins (i : Nat) (k : ConnId) (pc_eq : p.stop = .joining i k)
      (ended : p.threads[k]? = some .ended) :
      Stopping p none { p with stop := .stopping (i + 1) }
  | breaks (i : Nat) (k : ConnId) (pc_eq : p.stop = .joining i k) :
      Stopping p none { p with stop := .panicked }

theorem stopStep_cases {p p' : Pool} {o : Option PoolEffect} (h : p.stopStep = some (o, p')) :
    Stopping p o p' := by
  simp only [stopStep] at h
  split at h
  · rename_i i hpc
    split at h
    · rename_i hpast
      obtain ⟨rfl, rfl⟩ := Prod.mk.inj (Option.some.inj h)
      exact .completes i hpc hpast
    · rename_i w hw
      split at h
      · rename_i halive
        split at h
        · rename_i hthread
          obtain ⟨rfl, rfl⟩ := Prod.mk.inj (Option.some.inj h)
          exact .stopsAgain i w hpc hw halive hthread
        · rename_i k hthread
          obtain ⟨rfl, rfl⟩ := Prod.mk.inj (Option.some.inj h)
          exact .stops i w k hpc hw halive hthread
      · rename_i hdead
        obtain ⟨rfl, rfl⟩ := Prod.mk.inj (Option.some.inj h)
        exact .fails i w hpc hw (Bool.eq_false_iff.mpr hdead)
  · rename_i i k hpc
    split at h
    · cases h
    · rename_i c hc
      split at h
      · cases h
      · rename_i hended
        obtain ⟨rfl, rfl⟩ := Prod.mk.inj (Option.some.inj h)
        exact .joins i k hpc (by simp [threads, hc, hended])
      · obtain ⟨rfl, rfl⟩ := Prod.mk.inj (Option.some.inj h)
        exact .breaks i k hpc
  · cases h

/-! ## What a step does to the deque and to the calls -/

/-- The workers checked out by calls. -/
def held (p : Pool) : List SocketWorker := p.sends.filterMap Send.worker

/-- `Shift p e o sockets sends`: the step `e` of `p`, reported as `o`, leaves the deque
`sockets` and the calls `sends`. -/
inductive Shift (p : Pool) : PoolEvent → Option PoolEffect → List SocketWorker → List Send → Prop
  | arrives (msg : String) : Shift p (.send msg) none p.sockets (p.sends ++ [⟨msg, .start⟩])
  | finds (i : Nat) (msg : String) (call : p.sends[i]? = some ⟨msg, .start⟩)
      (free : p.locked = false) (empty : p.sockets = []) :
      Shift p (.call i) none p.sockets (p.sends.set i ⟨msg, .posting⟩)
  | pops (i : Nat) (msg : String) (w : SocketWorker) (rest : List SocketWorker)
      (call : p.sends[i]? = some ⟨msg, .start⟩) (free : p.locked = false)
      (front : p.sockets = w :: rest) :
      Shift p (.call i) none rest (p.sends.set i ⟨msg, .holding w⟩)
  | enqueues (i : Nat) (msg : String) (w : SocketWorker)
      (call : p.sends[i]? = some ⟨msg, .holding w⟩) (alive : p.accepts w.tx = true) :
      Shift p (.call i) (some (.enqueued i msg w)) p.sockets (p.sends.set i ⟨msg, .returning w⟩)
  | drops (i : Nat) (msg : String) (w : SocketWorker)
      (call : p.sends[i]? = some ⟨msg, .holding w⟩) (dead : p.accepts w.tx = false) :
      Shift p (.call i) (some (.refused i w)) p.sockets (p.sends.set i ⟨msg, .posting⟩)
  | pushes (i : Nat) (msg : String) (w : SocketWorker)
      (call : p.sends[i]? = some ⟨msg, .returning w⟩) (free : p.locked = false) :
      Shift p (.call i) none (p.sockets ++ [w]) (p.sends.set i ⟨msg, .done⟩)
  | posts (i : Nat) (msg : String) (call : p.sends[i]? = some ⟨msg, .posting⟩) :
      Shift p (.call i) (some (.posted i msg)) p.sockets (p.sends.set i ⟨msg, .done⟩)
  | repairs (i : Nat) (w w' : SocketWorker) (e : PoolEvent) (o : Option PoolEffect)
      (quiet : e.quiet = true) (silent : o.bind PoolEffect.call = none)
      (place : p.sockets[i]? = some w) (id : w'.id = w.id) (host : w'.host = w.host) :
      Shift p e o (p.sockets.set i w') p.sends
  | rests (e : PoolEvent) (o : Option PoolEffect) (quiet : e.quiet = true)
      (silent : o.bind PoolEffect.call = none) : Shift p e o p.sockets p.sends

section shift
variable {p p' : Pool} {e : PoolEvent} {o : Option PoolEffect}

theorem sendStep_shift {i : Nat} {c : Send} (hc : p.sends[i]? = some c)
    (h : p.sendStep i c = some (o, p')) : Shift p (.call i) o p'.sockets p'.sends := by
  obtain ⟨msg, pc⟩ := c
  cases pc with
  | start =>
      simp only [sendStep] at h
      split at h
      · cases h
      · rename_i hlock
        have hfree := Bool.eq_false_iff.mpr hlock
        split at h
        · rename_i hempty
          obtain ⟨rfl, rfl⟩ := Prod.mk.inj (Option.some.inj h)
          exact .finds i msg hc hfree hempty
        · rename_i w rest hfront
          obtain ⟨rfl, rfl⟩ := Prod.mk.inj (Option.some.inj h)
          exact .pops i msg w rest hc hfree hfront
  | holding w =>
      simp only [sendStep] at h
      split at h
      · rename_i halive
        obtain ⟨rfl, rfl⟩ := Prod.mk.inj (Option.some.inj h)
        exact .enqueues i msg w hc halive
      · rename_i hdead
        obtain ⟨rfl, rfl⟩ := Prod.mk.inj (Option.some.inj h)
        exact .drops i msg w hc (Bool.eq_false_iff.mpr hdead)
  | returning w =>
      simp only [sendStep] at h
      split at h
      · cases h
      · rename_i hlock
        obtain ⟨rfl, rfl⟩ := Prod.mk.inj (Option.some.inj h)
        exact .pushes i msg w hc (Bool.eq_false_iff.mpr hlock)
  | posting =>
      obtain ⟨rfl, rfl⟩ := Prod.mk.inj (Option.some.inj h)
      exact .posts i msg hc
  | done => cases h

theorem sentinelStep_shift {outcome : Bool} (h : p.sentinelStep outcome = some p') :
    Shift p (.sentinel outcome) none p'.sockets p'.sends := by
  obtain ⟨hsends, _, hvisited⟩ := sentinelStep_cases h
  rw [hsends]
  generalize p'.sockets = sockets at hvisited ⊢
  generalize p'.threads = threads at hvisited
  cases hvisited with
  | same => exact .rests _ _ rfl rfl
  | unthreads i w pc_eq place away => exact .repairs i w _ _ _ rfl rfl place rfl rfl
  | connects i w pc_eq place outcome_eq => exact .repairs i w _ _ _ rfl rfl place rfl rfl

theorem stopStep_shift (h : p.stopStep = some (o, p')) :
    Shift p .stopNext o p'.sockets p'.sends := by
  cases stopStep_cases h with
  | completes i pc_eq past => exact .rests _ _ rfl rfl
  | fails i w pc_eq place dead => exact .rests _ _ rfl rfl
  | stops i w k pc_eq place alive thread => exact .repairs i w _ _ _ rfl rfl place rfl rfl
  | stopsAgain i w pc_eq place alive thread => exact .rests _ _ rfl rfl
  | joins i k pc_eq ended => exact .rests _ _ rfl rfl
  | breaks i k pc_eq => exact .rests _ _ rfl rfl

/-- Every step of the pool shifts deque and calls in one of these ways. -/
theorem shift (h : machine.step p e = some (o, p')) : Shift p e o p'.sockets p'.sends := by
  cases e with
  | send msg =>
      obtain ⟨rfl, rfl⟩ := Prod.mk.inj (Option.some.inj h)
      exact .arrives msg
  | call i =>
      obtain ⟨c, hc, h⟩ := Option.bind_eq_some_iff.mp h
      exact sendStep_shift hc h
  | stop =>
      simp only [machine] at h
      split at h
      · cases h
      · obtain ⟨rfl, rfl⟩ := Prod.mk.inj (Option.some.inj h)
        exact .rests _ _ rfl rfl
  | stopNext => exact stopStep_shift h
  | sentinel outcome =>
      obtain ⟨q, hq, h⟩ := Option.map_eq_some_iff.mp h
      obtain ⟨rfl, rfl⟩ := Prod.mk.inj h
      exact sentinelStep_shift hq
  | die k how =>
      obtain ⟨q, hq, h⟩ := Option.map_eq_some_iff.mp h
      obtain ⟨rfl, rfl⟩ := Prod.mk.inj h
      simp only [dieStep] at hq
      split at hq
      · obtain rfl := Option.some.inj hq
        exact .rests _ _ rfl rfl
      · cases hq

end shift

end Pool

end Ethereyum
