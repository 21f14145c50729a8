/-
# `Shutdown` — a call of `stop`, and what is connected after it

`stop` goes through the deque under its lock, so neither the sentinel nor a call of
`send` moves a worker meanwhile (`Halting`): it sends `Stop` to a worker, takes its
join handle and joins the thread.  At the first worker whose mailbox is gone it
returns the error, and the workers behind that one hear nothing.

After it the sentinel goes on.  A worker that was stopped has no thread, which to
`reconnect` is a worker that failed, and a connection that succeeds brings it back.
So `stop` is total and final exactly when neither of these happens, and no call of
`send` was about to return a live worker (`shutdown_iff`).
-/
import Ethereyum.Checkout

namespace Ethereyum

/-- The workers a call of `stop` has sent `Stop` to, when it is in its loop. -/
def Stop.reached : Stop → Option Nat
  | .stopping i => some i
  | .joining i _ => some (i + 1)
  | _ => none

namespace Pool

/-- `SocketWorker::is_connected`: the question is asked, and a thread that gets it
answers yes. -/
def connected (p : Pool) (w : SocketWorker) : Bool := w.thread.isSome && p.accepts w.tx

/-- No worker of the deque is connected. -/
def Severed (p : Pool) : Prop := ∀ w ∈ p.sockets, p.connected w = false

/-- A step that connects a worker of the deque: the sentinel gets the connection it is
waiting for, or a call of `send` puts back a worker that is connected. -/
def Revives (p : Pool) : PoolEvent → Prop
  | .sentinel outcome =>
      outcome = true ∧ ∃ i w, p.sentinel = .visiting i .connecting ∧ p.sockets[i]? = some w
  | .call i => ∃ msg w, p.sends[i]? = some ⟨msg, .returning w⟩ ∧ p.connected w = true
  | _ => False

/-- A call of `stop` begins at `s₀` and returns with the step from `s` to `s₂`; `mid` is
what everybody did meanwhile. -/
structure Stopped (s₀ : Pool) (mid : List (PoolEvent × Option PoolEffect)) (s : Pool)
    (ok : Bool) (s₂ : Pool) : Prop where
  runs : machine.Run s₀ ((.stop, none) :: mid) s
  only : ∀ e ∈ mid, e.1 ≠ .stop
  returns : machine.step s .stopNext = some (some (.stopReturned ok), s₂)

/-! ## What a step does to the connections -/

section connections
variable {p p' : Pool} {e : PoolEvent} {o : Option PoolEffect} {w : SocketWorker}

theorem connected_congr (h : p'.threads = p.threads) (w : SocketWorker) :
    p'.connected w = p.connected w := by
  rw [connected, connected, accepts_congr h]

theorem dieStep_accepts {k : ConnId} {how : ThreadState} (h : p.dieStep k how = some p')
    {k' : ConnId} (h' : p'.accepts k' = true) : p.accepts k' = true := by
  simp only [dieStep] at h
  split at h
  · rename_i hcond
    obtain rfl := Option.some.inj h
    by_cases hk : k = k'
    · subst hk
      exact (Bool.and_eq_true_iff.mp hcond).1
    · rw [← h']
      simp [accepts, hk]
  · cases h

theorem dieStep_frame {k : ConnId} {how : ThreadState} (h : p.dieStep k how = some p') :
    p'.sockets = p.sockets ∧ p'.sentinel = p.sentinel ∧ p'.stop = p.stop := by
  simp only [dieStep] at h
  split at h
  · obtain rfl := Option.some.inj h
    exact ⟨rfl, rfl, rfl⟩
  · cases h

theorem Stopping.threads_eq (h : Stopping p o p') : p'.threads = p.threads := by
  cases h with
  | completes i pc_eq past => rfl
  | fails i w pc_eq place dead => rfl
  | stops i w k pc_eq place alive thread => exact deliver_threads (p := p) w.tx .stop
  | stopsAgain i w pc_eq place alive thread => exact deliver_threads (p := p) w.tx .stop
  | joins i k pc_eq ended => rfl
  | breaks i k pc_eq => rfl

theorem Severed.set (h : p.Severed) (hw : p.connected w = false) (i : Nat) :
    ∀ x ∈ p.sockets.set i w, p.connected x = false := by
  intro x hx
  rcases List.mem_or_eq_of_mem_set hx with hx | rfl
  · exact h x hx
  · exact hw

/-- The sentinel keeps a pool severed while it gets no connection. -/
theorem Severed.sentinelStep (h : p.Severed) {outcome : Bool}
    (hstep : p.sentinelStep outcome = some p') (hrevives : ¬ p.Revives (.sentinel outcome)) :
    p'.Severed := by
  obtain ⟨_, _, hvisited⟩ := sentinelStep_cases hstep
  generalize hsockets : p'.sockets = sockets at hvisited
  generalize hthreads : p'.threads = threads at hvisited
  cases hvisited with
  | same =>
      intro x hx
      rw [connected_congr hthreads]
      exact h x (hsockets ▸ hx)
  | unthreads i w pc_eq place away =>
      intro x hx
      rw [connected_congr hthreads]
      exact h.set (w := { w with thread := none }) rfl i x (hsockets ▸ hx)
  | connects i w pc_eq place outcome_eq => exact absurd ⟨outcome_eq, i, w, pc_eq, place⟩ hrevives

/-- A new connection is alive. -/
theorem connects_connected {i : Nat} (hpc : p.sentinel = .visiting i .connecting)
    (hw : p.sockets[i]? = some w) (hstep : p.sentinelStep true = some p') : ¬ p'.Severed := by
  simp only [Pool.sentinelStep, hpc, hw, visit, if_true, Option.some.injEq] at hstep
  subst hstep
  intro hsevered
  have hlt := Slots.lt_of_getElem? hw
  have hnew := hsevered { w with
    tx := p.connections.length, thread := some p.connections.length }
    (List.mem_of_getElem? (i := i) (by simp [setWorker, hlt]))
  simp [connected, accepts] at hnew

/-- A step leaves a severed pool severed unless it revives a worker. -/
theorem severed_iff (h : p.Severed) (hstep : machine.step p e = some (o, p')) :
    p'.Severed ↔ ¬ p.Revives e := by
  cases e with
  | send msg =>
      obtain ⟨rfl, rfl⟩ := Prod.mk.inj (Option.some.inj hstep)
      exact iff_of_true h id
  | call i =>
      obtain ⟨c, hc, hcall⟩ := Option.bind_eq_some_iff.mp hstep
      obtain ⟨hthreads, _⟩ := sendStep_frame hcall
      have hsevered : p'.Severed ↔ ∀ w ∈ p'.sockets, p.connected w = false := by
        refine forall₂_congr ?_
        intro w _
        rw [connected_congr hthreads]
      have hother : (∀ w, c.pc ≠ .returning w) → ¬ p.Revives (.call i) := by
        rintro hpc ⟨msg, w, hw, _⟩
        obtain rfl := Option.some.inj (hc.symm.trans hw)
        exact hpc w rfl
      have hself : ∀ {c' : Send}, p.sends[i]? = some c' → c = c' := fun hc' =>
        Option.some.inj (hc.symm.trans hc')
      rw [hsevered]
      have hshift := shift hstep
      generalize p'.sockets = sockets at hshift ⊢
      generalize p'.sends = sends at hshift
      cases hshift with
      | finds i msg call free empty =>
          obtain rfl := hself call
          exact iff_of_true h (hother (by simp))
      | pops i msg w rest call free front =>
          obtain rfl := hself call
          refine iff_of_true ?_ (hother (by simp))
          intro x hx
          exact h x (front ▸ List.mem_cons_of_mem w hx)
      | enqueues i msg w call alive =>
          obtain rfl := hself call
          exact iff_of_true h (hother (by simp))
      | drops i msg w call dead =>
          obtain rfl := hself call
          exact iff_of_true h (hother (by simp))
      | pushes i msg w call free =>
          constructor
          · rintro hall ⟨msg', w', hw', hconnected⟩
            cases Option.some.inj (call.symm.trans hw')
            rw [hall w (by simp)] at hconnected
            cases hconnected
          · intro hrevives x hx
            rcases List.mem_append.mp hx with hx | hx
            · exact h x hx
            · obtain rfl := List.mem_singleton.mp hx
              exact Bool.eq_false_iff.mpr fun hconnected =>
                hrevives ⟨msg, x, call, hconnected⟩
      | posts i msg call =>
          obtain rfl := hself call
          exact iff_of_true h (hother (by simp))
      | repairs i w w' e o quiet silent place id host => cases quiet
      | rests e o quiet silent => cases quiet
  | stop =>
      simp only [machine] at hstep
      split at hstep
      · cases hstep
      · obtain ⟨rfl, rfl⟩ := Prod.mk.inj (Option.some.inj hstep)
        exact iff_of_true h id
  | stopNext =>
      have hstopping := stopStep_cases hstep
      refine iff_of_true ?_ id
      intro x hx
      rw [connected_congr hstopping.threads_eq]
      cases hstopping with
      | completes i pc_eq past => exact h x hx
      | fails i w pc_eq place dead => exact h x hx
      | stops i w k pc_eq place alive thread => exact h.set rfl i x hx
      | stopsAgain i w pc_eq place alive thread => exact h x hx
      | joins i k pc_eq ended => exact h x hx
      | breaks i k pc_eq => exact h x hx
  | sentinel outcome =>
      obtain ⟨q, hq, hstep⟩ := Option.map_eq_some_iff.mp hstep
      obtain ⟨rfl, rfl⟩ := Prod.mk.inj hstep
      constructor
      · rintro hsevered ⟨rfl, i, w, hpc, hw⟩
        exact connects_connected hpc hw hq hsevered
      · exact h.sentinelStep hq
  | die k how =>
      obtain ⟨q, hq, hstep⟩ := Option.map_eq_some_iff.mp hstep
      obtain ⟨rfl, rfl⟩ := Prod.mk.inj hstep
      obtain ⟨hsockets, _⟩ := dieStep_frame hq
      refine iff_of_true ?_ id
      intro x hx
      rw [hsockets] at hx
      refine Bool.eq_false_iff.mpr ?_
      intro hconnected
      obtain ⟨hthread, haccepts⟩ := Bool.and_eq_true_iff.mp hconnected
      have hbefore : p.connected x = true :=
        Bool.and_eq_true_iff.mpr ⟨hthread, dieStep_accepts hq haccepts⟩
      rw [h x hx] at hbefore
      cases hbefore

end connections

/-! ## While `stop` is in its loop -/

/-- `stop` began at `s₀`, has sent `Stop` to the first `n` workers and is still in its
loop: it has their join handles, and otherwise the deque is as it was. -/
structure Halting (s₀ : Pool) (mid : List (PoolEvent × Option PoolEffect)) (p : Pool) (n : Nat) :
    Prop where
  away : p.sentinel.holds = false
  slots : ∀ j, p.sockets[j]? =
    s₀.sockets[j]?.map fun w => if j < n then { w with thread := none } else w
  accepts : ∀ k, p.accepts k = true → s₀.accepts k = true
  sent : ∀ j, (∃ e ∈ mid, e.2 = some (.stopSent j)) ↔ j < n

section halting
variable {s₀ s s₂ s₃ p p' : Pool} {mid post : List (PoolEvent × Option PoolEffect)} {n : Nat}
  {e : PoolEvent} {o : Option PoolEffect} {ok : Bool}

theorem sent_snoc {j : Nat} : (∃ x ∈ mid ++ [(e, o)], x.2 = some (.stopSent j)) ↔
    (∃ x ∈ mid, x.2 = some (.stopSent j)) ∨ o = some (.stopSent j) := by
  simp only [List.mem_append, List.mem_singleton, or_and_right, exists_or, exists_eq_left]

/-- What others do in the meantime. -/
theorem Halting.rest (h : Halting s₀ mid p n) (hsentinel : p'.sentinel = p.sentinel)
    (hsockets : p'.sockets = p.sockets)
    (haccepts : ∀ k, p'.accepts k = true → p.accepts k = true)
    (ho : ∀ j, o ≠ some (.stopSent j)) : Halting s₀ (mid ++ [(e, o)]) p' n where
  away := hsentinel ▸ h.away
  slots := hsockets ▸ h.slots
  accepts := fun k hk => h.accepts k (haccepts k hk)
  sent := by
    intro j
    rw [sent_snoc, or_iff_left (ho j), h.sent]

/-- The worker `stop` is at is the one that was there. -/
theorem Halting.place (h : Halting s₀ mid p n) {w : SocketWorker} (hw : p.sockets[n]? = some w) :
    s₀.sockets[n]? = some w := by
  rw [h.slots n] at hw
  simpa using hw

/-- The worker at `n` is sent `Stop`. -/
theorem Halting.next (h : Halting s₀ mid p n) {w : SocketWorker} (hw : p.sockets[n]? = some w)
    (stop : Stop) : Halting s₀ (mid ++ [(.stopNext, some (.stopSent n))])
      { (p.deliver w.tx .stop).setWorker n { w with thread := none } with stop } (n + 1) where
  away := h.away
  slots := by
    intro j
    show (p.sockets.set n { w with thread := none })[j]? = _
    rcases Nat.lt_trichotomy j n with hlt | rfl | hgt
    · have hlt' : j < n + 1 := Nat.lt_succ_of_lt hlt
      rw [List.getElem?_set_ne hlt.ne', h.slots j]
      simp only [hlt, hlt', if_true]
    · rw [List.getElem?_set_self (Slots.lt_of_getElem? hw), h.place hw]
      simp
    · have hge : ¬ j < n := hgt.not_gt
      have hge' : ¬ j < n + 1 := Nat.not_lt_of_le hgt
      rw [List.getElem?_set_ne hgt.ne, h.slots j]
      simp only [hge, hge', if_false]
  accepts := by
    intro k hk
    refine h.accepts k ?_
    rw [← hk]
    exact (accepts_congr (deliver_threads (p := p) w.tx .stop) k).symm
  sent := by
    intro j
    rw [sent_snoc, h.sent]
    simp only [Option.some.injEq, PoolEffect.stopSent.injEq]
    omega

theorem holds_of_reached (h : p.stop.reached = some n) : p.stop.holds = true := by
  cases hstop : p.stop <;> rw [hstop] at h <;> first | rfl | cases h

/-- While the deque is locked, a call of `send` takes no worker and puts none back. -/
theorem Shift.of_locked {i : Nat} {sockets : List SocketWorker} {sends : List Send}
    (h : Shift p (.call i) o sockets sends) (hlock : p.locked = true) :
    sockets = p.sockets ∧ ∀ j, o ≠ some (.stopSent j) := by
  cases h with
  | finds i msg call free empty => exact ⟨rfl, by simp⟩
  | pops i msg w rest call free front =>
      rw [hlock] at free
      cases free
  | enqueues i msg w call alive => exact ⟨rfl, by simp⟩
  | drops i msg w call dead => exact ⟨rfl, by simp⟩
  | pushes i msg w call free =>
      rw [hlock] at free
      cases free
  | posts i msg call => exact ⟨rfl, by simp⟩
  | repairs i w w' e o quiet silent place id host => cases quiet
  | rests e o quiet silent => cases quiet

/-- The sentinel waits for the lock. -/
theorem Halting.sentinel_waits (h : Halting s₀ mid p n) (hholds : p.stop.holds = true)
    (outcome : Bool) : p.sentinelStep outcome = none := by
  have haway := h.away
  cases hsentinel : p.sentinel with
  | asleep => simp [sentinelStep, hsentinel, hholds]
  | visiting i pc =>
      rw [hsentinel] at haway
      cases haway
  | panicked => simp [sentinelStep, hsentinel]

/-- One step while `stop` is in its loop. -/
theorem halting_step (h : ∀ n, p.stop.reached = some n → Halting s₀ mid p n) (he : e ≠ .stop)
    (hstep : machine.step p e = some (o, p')) :
    ∀ n, p'.stop.reached = some n → Halting s₀ (mid ++ [(e, o)]) p' n := by
  intro n hn
  cases e with
  | stop => exact absurd rfl he
  | send msg =>
      obtain ⟨rfl, rfl⟩ := Prod.mk.inj (Option.some.inj hstep)
      exact (h n hn).rest rfl rfl (fun _ hk => hk) (by simp)
  | call i =>
      obtain ⟨c, hc, hcall⟩ := Option.bind_eq_some_iff.mp hstep
      obtain ⟨hthreads, hsentinel, hstop, _⟩ := sendStep_frame hcall
      rw [hstop] at hn
      have hlock : p.locked = true := by simp [locked, holds_of_reached hn]
      obtain ⟨hsockets, ho⟩ := (shift hstep).of_locked hlock
      refine (h n hn).rest hsentinel hsockets ?_ ho
      intro k hk
      exact (accepts_congr hthreads k).symm.trans hk
  | stopNext =>
      have hstopping := stopStep_cases hstep
      cases hstopping with
      | completes i pc_eq past => cases hn
      | fails i w pc_eq place dead => cases hn
      | stops i w k pc_eq place alive thread =>
          obtain rfl := Option.some.inj hn
          exact (h i (by rw [pc_eq]; rfl)).next place _
      | stopsAgain i w pc_eq place alive thread => cases hn
      | joins i k pc_eq ended =>
          obtain rfl := Option.some.inj hn
          exact (h (i + 1) (by rw [pc_eq]; rfl)).rest rfl rfl (fun _ hk => hk) (by simp)
      | breaks i k pc_eq => cases hn
  | sentinel outcome =>
      obtain ⟨q, hq, hstep⟩ := Option.map_eq_some_iff.mp hstep
      obtain ⟨rfl, rfl⟩ := Prod.mk.inj hstep
      obtain ⟨_, hstop, _⟩ := sentinelStep_cases hq
      rw [hstop] at hn
      rw [(h n hn).sentinel_waits (holds_of_reached hn)] at hq
      cases hq
  | die k how =>
      obtain ⟨q, hq, hstep⟩ := Option.map_eq_some_iff.mp hstep
      obtain ⟨rfl, rfl⟩ := Prod.mk.inj hstep
      obtain ⟨hsockets, hsentinel, hstop⟩ := dieStep_frame hq
      rw [hstop] at hn
      exact (h n hn).rest hsentinel hsockets (fun _ hk => dieStep_accepts hq hk) (by simp)

/-- At the return `stop` is past the deque, or at a worker that is dead. -/
theorem Stopped.halting (h : Stopped s₀ mid s ok s₂) :
    ∃ i, s.stop = .stopping i ∧ Halting s₀ mid s i ∧ s₂.sockets = s.sockets ∧
      s₂.threads = s.threads := by
  obtain ⟨s₁, hstop, hrun⟩ := Mealy.run_cons.mp h.runs
  have hhalting : ∀ n, s.stop.reached = some n → Halting s₀ mid s n := by
    refine hrun.invariant_along (C := fun _ e => e ≠ .stop)
      (I := fun mid p => ∀ n, p.stop.reached = some n → Halting s₀ mid p n)
      (Mealy.along_of_forall fun e he _ => h.only e he) ?_ ?_
    · simp only [machine] at hstop
      split at hstop
      · cases hstop
      · rename_i hlock
        obtain ⟨_, rfl⟩ := Prod.mk.inj (Option.some.inj hstop)
        intro n hn
        obtain rfl := Option.some.inj hn
        refine { away := ?_, slots := ?_, accepts := fun _ hk => hk, sent := ?_ }
        · exact (Bool.or_eq_false_iff.mp (Bool.eq_false_iff.mpr hlock)).1
        · simp
        · simp
    · intro mid t t' e o _ he ih hstep
      exact halting_step ih he hstep
  have hstopping := stopStep_cases h.returns
  generalize ho : some (PoolEffect.stopReturned ok) = o at hstopping
  cases hstopping with
  | completes i pc_eq past => exact ⟨i, pc_eq, hhalting i (by rw [pc_eq]; rfl), rfl, rfl⟩
  | fails i w pc_eq place dead => exact ⟨i, pc_eq, hhalting i (by rw [pc_eq]; rfl), rfl, rfl⟩
  | stops i w k pc_eq place alive thread => cases ho
  | stopsAgain i w pc_eq place alive thread => cases ho
  | joins i k pc_eq ended => cases ho
  | breaks i k pc_eq => cases ho

/-! ## After it -/

/-- Every worker that was alive has been sent `Stop`. -/
def AllTold (s₀ : Pool) (mid : List (PoolEvent × Option PoolEffect)) : Prop :=
  ∀ i w, s₀.sockets[i]? = some w → s₀.accepts w.tx = true →
    ∃ e ∈ mid, e.2 = some (.stopSent i)

/-- Neither the worker `stop` is at in `s` nor one behind it was alive in `s₀`. -/
def RestDead (s₀ s : Pool) : Prop :=
  ∀ i, s.stop = .stopping i → ∀ j w, i ≤ j → s₀.sockets[j]? = some w → s₀.accepts w.tx = false

theorem Stopped.allTold_iff (h : Stopped s₀ mid s ok s₂) : AllTold s₀ mid ↔ RestDead s₀ s := by
  obtain ⟨i, hpc, hhalting, _, _⟩ := h.halting
  constructor
  · intro htold i' hpc' j w hij hw
    cases hpc.symm.trans hpc'
    refine Bool.eq_false_iff.mpr ?_
    intro halive
    have hlt := (hhalting.sent j).mp (htold j w hw halive)
    omega
  · intro hdead j w hw halive
    refine (hhalting.sent j).mpr (Nat.lt_of_not_le ?_)
    intro hij
    rw [hdead i hpc j w hij hw] at halive
    cases halive

/-- When `stop` told everybody who was alive, nobody is connected at its return. -/
theorem Stopped.severed (h : Stopped s₀ mid s ok s₂) (hdead : RestDead s₀ s) : s₂.Severed := by
  obtain ⟨i, hpc, hhalting, hsockets, hthreads⟩ := h.halting
  intro w hw
  rw [hsockets] at hw
  obtain ⟨j, hj⟩ := List.mem_iff_getElem?.mp hw
  rw [hhalting.slots j] at hj
  obtain ⟨w₀, hw₀, rfl⟩ := Option.map_eq_some_iff.mp hj
  by_cases hji : j < i
  · rw [if_pos hji]
    rfl
  · rw [if_neg hji, connected_congr hthreads, connected]
    have hdead₀ := hdead i hpc j w₀ (by omega) hw₀
    have hdead' : s.accepts w₀.tx = false := by
      refine Bool.eq_false_iff.mpr ?_
      intro halive
      rw [hhalting.accepts _ halive] at hdead₀
      cases hdead₀
    rw [hdead', Bool.and_false]

/-- **Shutdown.**  Every worker that was alive has been sent `Stop`, and none is connected
from the return of `stop` on, exactly when `stop` was stopped by no dead worker with one
behind it that was alive, and afterwards no step revives a worker. -/
theorem shutdown_iff (h : Stopped s₀ mid s ok s₂) (hpost : machine.Run s₂ post s₃) :
    (AllTold s₀ mid ∧
      ∀ pre rest t, post = pre ++ rest → machine.Run s₂ pre t → t.Severed) ↔
    RestDead s₀ s ∧ machine.Along (fun t e => ¬ t.Revives e) s₂ post := by
  rw [hpost.always_iff fun hsevered hstep => severed_iff hsevered hstep, h.allTold_iff]
  constructor
  · rintro ⟨hdead, _, halong⟩
    exact ⟨hdead, halong⟩
  · rintro ⟨hdead, halong⟩
    exact ⟨hdead, h.severed hdead, halong⟩

end halting

/-- The pool of two workers. -/
def twoWorkers : Pool := fresh [soleWorker, secondWorker] [liveConnection, liveConnection]

/-- It after `stop`. -/
def stoppedPool : Pool :=
  { sockets := [{ soleWorker with thread := none }, { secondWorker with thread := none }],
    connections := [⟨[.stop], .ended⟩, ⟨[.stop], .ended⟩], sends := [], sentinel := .asleep,
    stop := .returned true }

/-- The live workers are stopped, one after the other, and their threads end. -/
theorem stoppedPool_of_stop : ∃ mid s,
    Stopped twoWorkers mid s true stoppedPool ∧ s.stop = .stopping 2 := by
  have hcall : machine.Run twoWorkers _ _ :=
    Mealy.run_of_exec (show machine.exec twoWorkers [.stop, .stopNext, .die 0 .ended, .stopNext,
      .stopNext, .die 1 .ended, .stopNext] = some (_, _) from rfl)
  exact ⟨_, _, { runs := hcall, only := by simp, returns := rfl }, rfl⟩

/-- A pass of the sentinel that gets no connection, and a message that is refused and posted. -/
def afterStop : List PoolEvent :=
  List.replicate 8 (.sentinel false) ++ [.send "m", .call 0, .call 0, .call 0]

/-- Whether the step brings no connection to the deque. -/
def severs (p : Pool) : PoolEvent → Bool
  | .sentinel outcome => !outcome
  | .call i =>
      match p.sends[i]? with
      | some ⟨_, .returning w⟩ => !p.connected w
      | _ => true
  | _ => true

theorem not_revives_of_severs {p : Pool} {e : PoolEvent} (h : severs p e = true) :
    ¬ p.Revives e := by
  intro hrevives
  cases e with
  | sentinel outcome => simp [severs, hrevives.1] at h
  | call i =>
      obtain ⟨msg, w, hw, hconnected⟩ := hrevives
      simp [severs, hw, hconnected] at h
  | _ => exact hrevives

/-- The sentinel cannot reconnect the workers that were stopped. -/
theorem two_workers_stopped : ∃ mid post p, machine.exec stoppedPool afterStop = some (post, p) ∧
    ways 0 post = [.posted 0 "m"] ∧ AllTold twoWorkers mid ∧
    ∀ pre rest t, post = pre ++ rest → machine.Run stoppedPool pre t → t.Severed := by
  obtain ⟨mid, s, hstopped, hpc⟩ := stoppedPool_of_stop
  have hexec : machine.exec stoppedPool afterStop = some (_, _) := rfl
  refine ⟨mid, _, _, hexec, rfl, (shutdown_iff hstopped (Mealy.run_of_exec hexec)).mpr ⟨?_, ?_⟩⟩
  · intro i hi j w hij hw
    cases hpc.symm.trans hi
    have hnone : twoWorkers.sockets[j]? = none := List.getElem?_eq_none hij
    rw [hnone] at hw
    cases hw
  · exact Mealy.along_of_checks (fun _ _ h => not_revives_of_severs h) hexec (by decide +kernel)

/-- The first worker is dead: `stop` returns the error, and the second, which is alive,
has heard nothing. -/
theorem second_worker_untold : ∃ s s₂,
    Stopped (fresh [soleWorker, secondWorker] [⟨[], .ended⟩, liveConnection]) [] s false s₂ ∧
    ¬ AllTold (fresh [soleWorker, secondWorker] [⟨[], .ended⟩, liveConnection]) [] := by
  have hcall : machine.Run
      (fresh [soleWorker, secondWorker] [⟨[], .ended⟩, liveConnection]) _ _ :=
    Mealy.run_of_exec (show machine.exec
      (fresh [soleWorker, secondWorker] [⟨[], .ended⟩, liveConnection]) [.stop] =
        some (_, _) from rfl)
  refine ⟨_, _, { runs := hcall, only := by simp, returns := rfl }, ?_⟩
  intro htold
  obtain ⟨e, he, _⟩ := htold 1 secondWorker rfl rfl
  cases he

/-- The sentinel connects the worker that was stopped again. -/
theorem stoppedPool_reconnected : ∃ post p, machine.Run stoppedPool post p ∧ ¬ p.Severed := by
  have hpost : machine.Run stoppedPool _ _ :=
    Mealy.run_of_exec (show machine.exec stoppedPool [.sentinel true, .sentinel true,
      .sentinel true, .sentinel true] = some (_, _) from rfl)
  refine ⟨_, _, hpost, ?_⟩
  intro hsevered
  exact absurd (hsevered _ List.mem_cons_self) (by decide)

/-- Neither half of it holds of every call of `stop`: not that every worker that was alive
has been sent `Stop`, and not that none is connected afterwards. -/
theorem shutdown_partial_and_undone :
    (¬ ∀ (workers : List SocketWorker) (connections : List Connection)
      (mid : List (PoolEvent × Option PoolEffect)) (s s₂ : Pool) (ok : Bool),
      Stopped (fresh workers connections) mid s ok s₂ → AllTold (fresh workers connections) mid) ∧
    ¬ ∀ (workers : List SocketWorker) (connections : List Connection)
      (mid post : List (PoolEvent × Option PoolEffect)) (s s₂ s₃ : Pool) (ok : Bool),
      Stopped (fresh workers connections) mid s ok s₂ → machine.Run s₂ post s₃ → s₃.Severed := by
  constructor
  · intro h
    obtain ⟨s, s₂, hstopped, huntold⟩ := second_worker_untold
    exact huntold (h _ _ _ s s₂ false hstopped)
  · intro h
    obtain ⟨mid, s, hstopped, _⟩ := stoppedPool_of_stop
    obtain ⟨post, p, hpost, hconnected⟩ := stoppedPool_reconnected
    exact hconnected (h _ _ mid post s stoppedPool p true hstopped hpost)

end Pool

end Ethereyum
