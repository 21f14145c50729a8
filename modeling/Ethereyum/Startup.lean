/-
# `Startup` — how a client comes by its workers

`Client::new` opens `num_connections` connections to each of its hosts, host by host, one after
the other; the first that does not come up ends it.

    hosts → host → made → asked → host → … → hosts → started
                 ↘ failed          ↘ panicked

After each connection `start_connection` asks the new worker whether it is connected, only to log
the answer; when the thread ends before it answers, the question panics.  `info!` evaluates what
it logs only when its level is on: otherwise the worker goes into the deque unasked, from `made`
straight to `host`.

The deque that `RoundRobin` deals messages from is then `plan`, whatever became of the threads in
the meantime (`opened_as_planned`).  So a host gets its messages in groups of `num_connections`,
and the hosts take turns (`hosts_take_turns`).
-/
import Ethereyum.RoundRobin
import Ethereyum.Value

namespace Ethereyum

/-! ## The loops -/

/-- How far `Client::new` has got. -/
inductive StartPc where
  /-- `for host in hosts` -/
  | hosts (rest : List String)
  /-- `for _ in 0..num_connections`, with `left` to go -/
  | host (host : String) (left : Nat) (rest : List String)
  /-- `new_socket_worker` returned, and `info!` is reached -/
  | made (worker : SocketWorker) (host : String) (left : Nat) (rest : List String)
  /-- it waits for the status -/
  | asked (worker : SocketWorker) (host : String) (left : Nat) (rest : List String)
  | started
  | failed
  | panicked

structure Startup where
  pool : Pool
  workerId : Nat
  pc : StartPc

inductive StartEvent where
  /-- a loop goes on -/
  | turn
  /-- `SocketWorker::connect`, and whether the connection came up in time -/
  | connect (outcome : Bool)
  /-- `info!` is off, and its argument is not evaluated -/
  | unasked
  /-- `info!` is on, and `is_connected` sends its question -/
  | ask
  /-- it has its answer, or the question was lost -/
  | status (outcome : Bool)
  | die (k : ConnId) (how : ThreadState)

namespace Startup

/-- `Client::new`, before its loops. -/
def new (hosts : List String) : Startup :=
  { pool := Pool.fresh [] [], workerId := 0, pc := .hosts hosts }

/-- `self.sockets.lock().push_back(worker)`. -/
def pushBack (s : Startup) (w : SocketWorker) (pc : StartPc) : Startup :=
  { s with pool := { s.pool with sockets := s.pool.sockets ++ [w] }, pc }

/-- `new_socket_worker` on a connection that came up. -/
def newWorker (s : Startup) (host : String) (left : Nat) (rest : List String) : Startup :=
  let k := s.pool.connections.length
  let worker : SocketWorker := { id := s.workerId, host, tx := k, thread := some k }
  { pool := { s.pool with
      connections := s.pool.connections ++ [{ mailbox := [], thread := .running }] },
    workerId := (s.workerId + 1) % word,
    pc := .made worker host left rest }

/-- `Client::new` as a machine; an attempt to connect answers with its outcome. -/
def machine (numConnections : Nat) : Mealy Startup StartEvent (Option Bool) where
  step s
    | .turn =>
        match s.pc with
        | .hosts [] => some (none, { s with pc := .started })
        | .hosts (host :: rest) => some (none, { s with pc := .host host numConnections rest })
        | .host _ 0 rest => some (none, { s with pc := .hosts rest })
        | _ => none
    | .connect outcome =>
        match s.pc with
        | .host host (left + 1) rest =>
            if outcome then some (some true, s.newWorker host left rest)
            else
              -- the client goes out of scope
              some (some false, { pool := { s.pool with sockets := [] },
                                  workerId := (s.workerId + 1) % word, pc := .failed })
        | _ => none
    | .unasked =>
        match s.pc with
        | .made worker host left rest => some (none, s.pushBack worker (.host host left rest))
        | _ => none
    | .ask =>
        match s.pc with
        | .made worker host left rest =>
            match s.pool.askStatus worker with
            | some pool => some (none, { s with pool, pc := .asked worker host left rest })
            | none => some (none, s.pushBack worker (.host host left rest))
        | _ => none
    | .status outcome =>
        match s.pc with
        | .asked worker host left rest =>
            if outcome then some (none, s.pushBack worker (.host host left rest))
            else if s.pool.accepts worker.tx then none
            else some (none, { s with pc := .panicked })
        | _ => none
    | .die k how => (s.pool.dieStep k how).map fun pool => (none, { s with pool })

/-! ## What is opened -/

/-- The hosts of the connections, in the order in which they are opened. -/
def targets (hosts : List String) (numConnections : Nat) : List String :=
  hosts.flatMap (List.replicate numConnections)

/-- The workers that `Client::new` makes of them. -/
def plan (hosts : List String) (numConnections : Nat) : List SocketWorker :=
  (targets hosts numConnections).mapIdx fun i host =>
    { id := i % word, host, tx := i, thread := some i }

/-- The outcomes of the attempts to connect. -/
def attempts (tr : List (StartEvent × Option Bool)) : List Bool := tr.filterMap (·.2)

/-- The hosts that are still to be connected to. -/
def ahead (numConnections : Nat) : StartPc → List String
  | .hosts rest => targets rest numConnections
  | .host host left rest => List.replicate left host ++ targets rest numConnections
  | .made _ host left rest => List.replicate left host ++ targets rest numConnections
  | .asked _ host left rest => List.replicate left host ++ targets rest numConnections
  | _ => []

/-- The worker that is not in the deque yet. -/
def current : StartPc → List SocketWorker
  | .made worker _ _ _ => [worker]
  | .asked worker _ _ _ => [worker]
  | _ => []

/-- The loops have come so far that `n` connections are open. -/
structure Opening (hosts : List String) (numConnections n : Nat) (s : Startup) : Prop where
  bound : n ≤ (targets hosts numConnections).length
  connections : s.pool.connections.length = n
  workers : s.pool.sockets ++ current s.pc = (plan hosts numConnections).take n
  todo : (targets hosts numConnections).drop n = ahead numConnections s.pc
  workerId : s.workerId = n % word
  sends : s.pool.sends = []
  sentinel : s.pool.sentinel = .asleep
  stop : s.pool.stop = .idle

/-- Where a run of `Client::new` has come, after these attempts. -/
inductive Opened (hosts : List String) (numConnections : Nat) : List Bool → Startup → Prop
  | going {n : Nat} {s : Startup} (opening : Opening hosts numConnections n s)
      (alive : s.pc ≠ .failed ∧ s.pc ≠ .panicked) :
      Opened hosts numConnections (List.replicate n true) s
  | failed {n : Nat} {s : Startup} (pc : s.pc = .failed)
      (short : n < (targets hosts numConnections).length) (sockets : s.pool.sockets = []) :
      Opened hosts numConnections (List.replicate n true ++ [false]) s
  | panicked {n : Nat} {s : Startup} (pc : s.pc = .panicked) :
      Opened hosts numConnections (List.replicate n true) s

section opened
variable {hosts : List String} {numConnections n : Nat} {s s' : Startup} {e : StartEvent}
  {o : Option Bool} {outcomes : List Bool} {tr : List (StartEvent × Option Bool)}

theorem attempts_snoc : attempts (tr ++ [(e, o)]) = attempts tr ++ o.toList := by
  cases o <;> simp [attempts]

theorem length_targets (hosts : List String) (numConnections : Nat) :
    (targets hosts numConnections).length = hosts.length * numConnections := by
  simp [targets, List.length_flatMap, Nat.mul_comm]

/-- Each host has its place in the list once for each of its connections. -/
theorem targets_getElem? (hosts : List String) (hpos : 0 < numConnections) (j : Nat) :
    (targets hosts numConnections)[j]? = hosts[j / numConnections]? := by
  induction hosts generalizing j with
  | nil => simp [targets]
  | cons host rest ih =>
      have hcons : targets (host :: rest) numConnections =
          List.replicate numConnections host ++ targets rest numConnections := rfl
      rw [hcons]
      rcases Nat.lt_or_ge j numConnections with hlt | hge
      · rw [List.getElem?_append_left (by simpa using hlt), Nat.div_eq_of_lt hlt]
        simp [hlt]
      · obtain ⟨i, rfl⟩ := Nat.exists_eq_add_of_le hge
        rw [List.getElem?_append_right (by simp), List.length_replicate, Nat.add_sub_cancel_left,
          ih, Nat.add_div_left i hpos, List.getElem?_cons_succ]

theorem opened_new (hosts : List String) (numConnections : Nat) :
    Opened hosts numConnections [] (new hosts) :=
  .going (n := 0) ⟨Nat.zero_le _, rfl, rfl, rfl, rfl, rfl, rfl, rfl⟩ ⟨nofun, nofun⟩

/-- What goes through the connections, and which of their threads are over, does not matter. -/
theorem Opening.congr (h : Opening hosts numConnections n s) {connections : List Connection}
    (hlen : connections.length = s.pool.connections.length) :
    Opening hosts numConnections n { s with pool := { s.pool with connections } } :=
  { h with connections := hlen.trans h.connections }

theorem dieStep_connections {p p' : Pool} {k : ConnId} {how : ThreadState}
    (h : p.dieStep k how = some p') :
    ∃ connections, p' = { p with connections } ∧ connections.length = p.connections.length := by
  simp only [Pool.dieStep] at h
  split at h
  · exact ⟨_, (Option.some.inj h).symm, List.length_modify _ _ _⟩
  · cases h

/-- The worker that was just made is put into the deque. -/
theorem Opening.pushBack (h : Opening hosts numConnections n s) {w : SocketWorker} {host : String}
    {left : Nat} {rest : List String} (hcurrent : current s.pc = [w])
    (htodo : ahead numConnections s.pc = List.replicate left host ++ targets rest numConnections) :
    Opening hosts numConnections n (s.pushBack w (.host host left rest)) where
  bound := h.bound
  connections := h.connections
  workers := by
    rw [← h.workers, hcurrent]
    exact List.append_nil _
  todo := h.todo.trans htodo
  workerId := h.workerId
  sends := h.sends
  sentinel := h.sentinel
  stop := h.stop

/-- The next connection comes up. -/
theorem Opening.connect (h : Opening hosts numConnections n s) {host : String} {left : Nat}
    {rest : List String} (hpc : s.pc = .host host (left + 1) rest) :
    (targets hosts numConnections)[n]? = some host ∧
    Opening hosts numConnections (n + 1) (s.newWorker host left rest) := by
  have htodo : (targets hosts numConnections).drop n =
      host :: (List.replicate left host ++ targets rest numConnections) := by
    rw [h.todo, hpc]
    rfl
  have hhost : (targets hosts numConnections)[n]? = some host := by
    rw [← List.head?_drop, htodo]
    rfl
  have hworker : (plan hosts numConnections)[n]? = some
      { id := n % word, host, tx := n, thread := some n } := by
    rw [plan, List.getElem?_mapIdx, hhost]
    rfl
  refine ⟨hhost, ?_⟩
  exact {
    bound := (List.getElem?_eq_some_iff.mp hhost).1
    connections := by
      show (s.pool.connections ++ [_]).length = n + 1
      rw [List.length_append, h.connections]
      rfl
    workers := by
      have hworkers := h.workers
      rw [hpc] at hworkers
      rw [List.take_add_one, hworker, ← hworkers, ← h.workerId, ← h.connections]
      exact congrArg (· ++ _) (List.append_nil _).symm
    todo := by
      rw [← List.tail_drop, htodo]
      rfl
    workerId := by
      show (s.workerId + 1) % word = (n + 1) % word
      rw [h.workerId, Nat.mod_add_mod]
    sends := h.sends
    sentinel := h.sentinel
    stop := h.stop }

/-- As long as the loops go on. -/
theorem Opened.opening (h : Opened hosts numConnections outcomes s)
    (halive : s.pc ≠ .failed ∧ s.pc ≠ .panicked) :
    ∃ n, outcomes = List.replicate n true ∧ Opening hosts numConnections n s := by
  cases h with
  | going opening alive => exact ⟨_, rfl, opening⟩
  | failed pc short sockets => exact absurd pc halive.1
  | panicked pc => exact absurd pc halive.2

/-- A loop goes on: nothing is opened, and as much is left to do. -/
theorem Opening.turn (h : Opening hosts numConnections n s) {pc : StartPc}
    (hcurrent : current pc = current s.pc)
    (hahead : ahead numConnections pc = ahead numConnections s.pc) :
    Opening hosts numConnections n { s with pc } :=
  { h with
    workers := hcurrent.symm ▸ h.workers
    todo := h.todo.trans hahead.symm }

theorem Opened.turn (h : Opened hosts numConnections outcomes s)
    (hstep : (machine numConnections).step s .turn = some (o, s')) :
    Opened hosts numConnections (outcomes ++ o.toList) s' := by
  have hgoes : ∀ pc, some (none, { s with pc }) = some (o, s') →
      (s.pc ≠ .failed ∧ s.pc ≠ .panicked) → (pc ≠ .failed ∧ pc ≠ .panicked) →
      current pc = current s.pc → ahead numConnections pc = ahead numConnections s.pc →
      Opened hosts numConnections (outcomes ++ o.toList) s' := by
    intro pc heq halive halive' hcurrent hahead
    cases heq
    obtain ⟨n, rfl, opening⟩ := h.opening halive
    rw [Option.toList_none, List.append_nil]
    exact .going (opening.turn hcurrent hahead) halive'
  cases hpc : s.pc with
  | hosts rest =>
      cases rest with
      | nil =>
          simp only [machine, hpc] at hstep
          exact hgoes _ hstep ⟨by simp [hpc], by simp [hpc]⟩ ⟨nofun, nofun⟩ (by rw [hpc]; rfl)
            (by rw [hpc]; rfl)
      | cons host rest =>
          simp only [machine, hpc] at hstep
          exact hgoes _ hstep ⟨by simp [hpc], by simp [hpc]⟩ ⟨nofun, nofun⟩ (by rw [hpc]; rfl)
            (by rw [hpc]; rfl)
  | host host left rest =>
      cases left with
      | zero =>
          simp only [machine, hpc] at hstep
          exact hgoes _ hstep ⟨by simp [hpc], by simp [hpc]⟩ ⟨nofun, nofun⟩ (by rw [hpc]; rfl)
            (by rw [hpc]; rfl)
      | succ left => simp [machine, hpc] at hstep
  | _ => simp [machine, hpc] at hstep

theorem Opened.connect (h : Opened hosts numConnections outcomes s) {outcome : Bool}
    (hstep : (machine numConnections).step s (.connect outcome) = some (o, s')) :
    Opened hosts numConnections (outcomes ++ o.toList) s' := by
  cases hpc : s.pc with
  | host host left rest =>
      cases left with
      | zero => simp [machine, hpc] at hstep
      | succ left =>
          obtain ⟨n, rfl, opening⟩ := h.opening ⟨by simp [hpc], by simp [hpc]⟩
          obtain ⟨hhost, hnext⟩ := opening.connect hpc
          cases outcome with
          | true =>
              simp only [machine, hpc, if_true, Option.some.injEq, Prod.mk.injEq] at hstep
              obtain ⟨rfl, rfl⟩ := hstep
              have hcount : List.replicate n true ++ (some true).toList =
                  List.replicate (n + 1) true := List.replicate_succ'.symm
              rw [hcount]
              exact .going hnext ⟨nofun, nofun⟩
          | false =>
              simp only [machine, hpc, Bool.false_eq_true, if_false, Option.some.injEq,
                Prod.mk.injEq] at hstep
              obtain ⟨rfl, rfl⟩ := hstep
              exact .failed rfl (List.getElem?_eq_some_iff.mp hhost).1 rfl
  | _ => simp [machine, hpc] at hstep

theorem Opened.unasked (h : Opened hosts numConnections outcomes s)
    (hstep : (machine numConnections).step s .unasked = some (o, s')) :
    Opened hosts numConnections (outcomes ++ o.toList) s' := by
  cases hpc : s.pc with
  | made w host left rest =>
      obtain ⟨n, rfl, opening⟩ := h.opening ⟨by simp [hpc], by simp [hpc]⟩
      simp only [machine, hpc] at hstep
      cases hstep
      rw [Option.toList_none, List.append_nil]
      exact .going (opening.pushBack (by rw [hpc]; rfl) (by rw [hpc]; rfl)) ⟨nofun, nofun⟩
  | _ => simp [machine, hpc] at hstep

theorem Opened.ask (h : Opened hosts numConnections outcomes s)
    (hstep : (machine numConnections).step s .ask = some (o, s')) :
    Opened hosts numConnections (outcomes ++ o.toList) s' := by
  cases hpc : s.pc with
  | made w host left rest =>
      obtain ⟨n, rfl, opening⟩ := h.opening ⟨by simp [hpc], by simp [hpc]⟩
      cases hask : s.pool.askStatus w with
      | none =>
          simp only [machine, hpc, hask] at hstep
          cases hstep
          rw [Option.toList_none, List.append_nil]
          exact .going (opening.pushBack (by rw [hpc]; rfl) (by rw [hpc]; rfl)) ⟨nofun, nofun⟩
      | some pool =>
          simp only [machine, hpc, hask] at hstep
          cases hstep
          rw [Option.toList_none, List.append_nil, Pool.askStatus_eq_some hask]
          have hlen : (s.pool.deliver w.tx .connectedStatus).connections.length =
              s.pool.connections.length := List.length_modify _ _ _
          exact .going ((opening.congr hlen).turn (by rw [hpc]; rfl) (by rw [hpc]; rfl))
            ⟨nofun, nofun⟩
  | _ => simp [machine, hpc] at hstep

theorem Opened.status (h : Opened hosts numConnections outcomes s) {outcome : Bool}
    (hstep : (machine numConnections).step s (.status outcome) = some (o, s')) :
    Opened hosts numConnections (outcomes ++ o.toList) s' := by
  cases hpc : s.pc with
  | asked w host left rest =>
      obtain ⟨n, rfl, opening⟩ := h.opening ⟨by simp [hpc], by simp [hpc]⟩
      cases outcome with
      | true =>
          simp only [machine, hpc, if_true] at hstep
          cases hstep
          rw [Option.toList_none, List.append_nil]
          exact .going (opening.pushBack (by rw [hpc]; rfl) (by rw [hpc]; rfl)) ⟨nofun, nofun⟩
      | false =>
          simp only [machine, hpc, Bool.false_eq_true, if_false] at hstep
          split at hstep
          · cases hstep
          · cases hstep
            rw [Option.toList_none, List.append_nil]
            exact .panicked rfl
  | _ => simp [machine, hpc] at hstep

theorem Opened.die (h : Opened hosts numConnections outcomes s) {k : ConnId} {how : ThreadState}
    (hstep : (machine numConnections).step s (.die k how) = some (o, s')) :
    Opened hosts numConnections (outcomes ++ o.toList) s' := by
  obtain ⟨pool, hdie, heq⟩ := Option.map_eq_some_iff.mp hstep
  cases heq
  obtain ⟨connections, rfl, hlen⟩ := dieStep_connections hdie
  rw [Option.toList_none, List.append_nil]
  cases h with
  | going opening alive => exact .going (opening.congr hlen) alive
  | failed pc short sockets => exact .failed pc short sockets
  | panicked pc => exact .panicked pc

theorem Opened.step (h : Opened hosts numConnections outcomes s)
    (hstep : (machine numConnections).step s e = some (o, s')) :
    Opened hosts numConnections (outcomes ++ o.toList) s' := by
  cases e with
  | turn => exact h.turn hstep
  | connect outcome => exact h.connect hstep
  | unasked => exact h.unasked hstep
  | ask => exact h.ask hstep
  | status outcome => exact h.status hstep
  | die k how => exact h.die hstep

theorem opened_of_run (hrun : (machine numConnections).Run (new hosts) tr s) :
    Opened hosts numConnections (attempts tr) s :=
  hrun.invariant (I := fun tr s => Opened hosts numConnections (attempts tr) s)
    (opened_new hosts numConnections) fun _ h hstep => attempts_snoc ▸ h.step hstep

/-- The pool of the client that is returned. -/
theorem Opening.of_started (h : Opening hosts numConnections n s) (hpc : s.pc = .started) :
    n = hosts.length * numConnections ∧
      s.pool = Pool.fresh (plan hosts numConnections) s.pool.connections := by
  have hnone : (targets hosts numConnections).drop n = [] := by
    rw [h.todo, hpc]
    rfl
  have hall : n = (targets hosts numConnections).length :=
    Nat.le_antisymm h.bound (List.drop_eq_nil_iff.mp hnone)
  have hsockets : s.pool.sockets = plan hosts numConnections := by
    have hworkers := h.workers
    rw [hpc, hall] at hworkers
    rw [← List.append_nil s.pool.sockets]
    refine hworkers.trans (List.take_of_length_le ?_)
    rw [plan, List.length_mapIdx]
  refine ⟨hall.trans (length_targets hosts numConnections), ?_⟩
  rw [Pool.fresh, ← hsockets, ← h.sends, ← h.sentinel, ← h.stop]

/-- **`Client::new` opens its connections in order, and stops at the first that does not come
up.**  When it returns a client, every attempt succeeded, and the deque holds a worker for each
connection, host by host; when it fails, the attempt that failed was the last one, and it was not
made for nothing.  Threads may end in the meantime, whenever they like. -/
theorem opened_as_planned (hrun : (machine numConnections).Run (new hosts) tr s) :
    (s.pc = .started → attempts tr = List.replicate (hosts.length * numConnections) true ∧
      ∃ connections, connections.length = hosts.length * numConnections ∧
        s.pool = Pool.fresh (plan hosts numConnections) connections) ∧
    (s.pc = .failed → s.pool.sockets = [] ∧ ∃ n, n < hosts.length * numConnections ∧
      attempts tr = List.replicate n true ++ [false]) := by
  have hopened := opened_of_run hrun
  constructor
  · intro hpc
    obtain ⟨n, hattempts, hopening⟩ := hopened.opening ⟨by simp [hpc], by simp [hpc]⟩
    obtain ⟨rfl, hpool⟩ := hopening.of_started hpc
    exact ⟨hattempts, _, hopening.connections, hpool⟩
  · intro hpc
    generalize hattempts : attempts tr = outcomes at hopened
    cases hopened with
    | going _ alive => exact absurd hpc alive.1
    | @failed n _ _ short sockets =>
        rw [length_targets] at short
        exact ⟨sockets, n, short, rfl⟩
    | panicked pc =>
        rw [hpc] at pc
        cases pc

end opened

/-- Two hosts and a connection each; the first worker is put in unasked, and the thread of the
second is over before it is asked for its status. -/
theorem two_hosts_opened : ∃ tr s, (machine 1).Run (new ["a", "b"]) tr s ∧ s.pc = .started ∧
    attempts tr = [true, true] ∧ ∃ connections, connections.length = 2 ∧
      s.pool = Pool.fresh (plan ["a", "b"] 1) connections := by
  have hrun : (machine 1).Run (new ["a", "b"]) _ _ :=
    Mealy.run_of_exec (show (machine 1).exec (new ["a", "b"]) [.turn, .connect true,
      .unasked, .turn, .turn, .connect true, .die 1 .ended, .ask, .turn, .turn] =
        some (_, _) from rfl)
  exact ⟨_, _, hrun, rfl, (opened_as_planned hrun).1 rfl⟩

section turns
variable {hosts : List String} {numConnections : Nat} {s : Startup}

/-- **The hosts take turns.**  Once the client is there, and while its workers are alive: messages
that are sent one after another go to the hosts in groups of `num_connections`, one host after
the other, over and over, and each message is sent once. -/
theorem hosts_take_turns {pre : List (StartEvent × Option Bool)}
    {mid : List (PoolEvent × Option PoolEffect)} {p : Pool}
    (hstart : (machine numConnections).Run (new hosts) pre s) (hstarted : s.pc = .started)
    (hne : hosts ≠ []) (hpos : 0 < numConnections)
    (halive : ∀ w ∈ s.pool.sockets, s.pool.accepts w.tx = true)
    (hrun : Pool.machine.Run s.pool mid p) (hcalm : ∀ e ∈ mid, e.1.calm = true)
    (hseq : Pool.machine.Along Pool.Sequential s.pool mid) (hidle : p.Idle) :
    ∀ (j : Nat) (c : Send), p.sends[j]? = some c → ∃ w : SocketWorker,
      hosts[j / numConnections % hosts.length]? = some w.host ∧
      Pool.ways j mid = [.enqueued j c.msg w] := by
  obtain ⟨n, _, hopening⟩ :=
    (opened_of_run hstart).opening ⟨by simp [hstarted], by simp [hstarted]⟩
  obtain ⟨_, hpool⟩ := hopening.of_started hstarted
  have hlen : (plan hosts numConnections).length = hosts.length * numConnections := by
    rw [plan, List.length_mapIdx, length_targets]
  have hworkers : plan hosts numConnections ≠ [] := by
    rw [← List.length_pos_iff, hlen]
    exact Nat.mul_pos (List.length_pos_iff.mpr hne) hpos
  rw [hpool] at hrun hseq halive
  have hdealt := (Pool.dealing_of_run hrun hworkers hcalm hseq halive).dealt hworkers hidle
  intro j c hc
  obtain ⟨w, hw, hway⟩ := hdealt.once j c hc
  refine ⟨w, ?_, hway⟩
  rw [Pool.turnOf, hlen, plan, List.getElem?_mapIdx] at hw
  obtain ⟨host, hhost, rfl⟩ := Option.map_eq_some_iff.mp hw
  rw [targets_getElem? hosts hpos, Nat.mod_mul_left_div_self] at hhost
  exact hhost

end turns

/-- A client with two hosts and a connection each, made while the log was off. -/
def twoHosts : Startup :=
  { pool := Pool.fresh
      [{ id := 0, host := "a", tx := 0, thread := some 0 },
       { id := 1, host := "b", tx := 1, thread := some 1 }]
      [{ mailbox := [], thread := .running }, { mailbox := [], thread := .running }],
    workerId := 2, pc := .started }

/-- Two messages, one after the other. -/
def twoMessages : List (PoolEvent × Option PoolEffect) :=
  [(.send "x", none), (.call 0, none),
   (.call 0, some (.enqueued 0 "x" { id := 0, host := "a", tx := 0, thread := some 0 })),
   (.call 0, none), (.send "y", none), (.call 1, none),
   (.call 1, some (.enqueued 1 "y" { id := 1, host := "b", tx := 1, thread := some 1 })),
   (.call 1, none)]

/-- The pool after them. -/
def twoSent : Pool :=
  { twoHosts.pool with
    connections := [{ mailbox := [.text "x"], thread := .running },
      { mailbox := [.text "y"], thread := .running }],
    sends := [⟨"x", .done⟩, ⟨"y", .done⟩] }

theorem twoMessages_sequential : Pool.machine.Along Pool.Sequential twoHosts.pool twoMessages := by
  refine Mealy.along_cons (by simp [Pool.Sequential, Pool.Idle, twoHosts, Pool.fresh]) rfl ?_
  iterate 3 refine Mealy.along_cons trivial rfl ?_
  refine Mealy.along_cons (by simp [Pool.Sequential, Pool.Idle, twoHosts, Pool.fresh]) rfl ?_
  iterate 2 refine Mealy.along_cons trivial rfl ?_
  exact Mealy.along_single trivial

theorem two_messages_take_turns : ∃ pre, (machine 1).Run (new ["a", "b"]) pre twoHosts ∧
    Pool.machine.Run twoHosts.pool twoMessages twoSent ∧
    ∃ w : SocketWorker, w.host = "b" ∧ Pool.ways 1 twoMessages = [.enqueued 1 "y" w] := by
  have hstart : (machine 1).Run (new ["a", "b"]) _ twoHosts :=
    Mealy.run_of_exec (show (machine 1).exec (new ["a", "b"]) [.turn, .connect true,
      .unasked, .turn, .turn, .connect true, .unasked, .turn, .turn] =
        some (_, twoHosts) from rfl)
  have hrun : Pool.machine.Run twoHosts.pool twoMessages twoSent :=
    Mealy.run_of_exec (show Pool.machine.exec twoHosts.pool (twoMessages.map Prod.fst) =
      some (twoMessages, twoSent) from rfl)
  have hcalm : ∀ e ∈ twoMessages, e.1.calm = true := by simp [twoMessages, PoolEvent.calm]
  obtain ⟨w, hhost, hway⟩ := hosts_take_turns hstart rfl (by simp) (by decide)
    (by simp [twoHosts, Pool.fresh, Pool.accepts]) hrun hcalm twoMessages_sequential
    (by simp [twoSent, Pool.Idle]) 1 ⟨"y", .done⟩ rfl
  exact ⟨_, hstart, hrun, w, (Option.some.inj hhost).symm, hway⟩

end Startup

end Ethereyum
