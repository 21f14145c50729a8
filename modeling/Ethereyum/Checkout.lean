/-
# `Checkout` — the workers a send takes out of the pool, and whether they come back

A worker is in the deque, with a call of `send` that checked it out, or lost with
one that found it dead: `send` puts a worker back after it sent on it, and drops it
when the send fails.  Together they are the workers of `Client::new`
(`conserved_of_run`), whatever the sentinel does to them in place.

So the deque is whole whenever no call is in progress exactly when no call found
its worker dead (`slots_kept_iff`).  While all workers are alive nothing is lost;
but a call that finds the deque empty takes the HTTP path, which it does exactly
when the other calls have all the workers out (`live_workers_used`).
-/
import Ethereyum.Pool

namespace Ethereyum

/-- The worker that goes out of scope with an effect. -/
def PoolEffect.lost : PoolEffect → Option SocketWorker
  | .refused _ w => some w
  | _ => none

/-- The way an effect says the message of the `i`-th call went. -/
def PoolEffect.way (i : Nat) : PoolEffect → Option PoolEffect
  | .enqueued j msg w => if j = i then some (.enqueued j msg w) else none
  | .posted j msg => if j = i then some (.posted j msg) else none
  | _ => none

/-- The text an effect put into the mailbox of `k`. -/
def PoolEffect.textOn (k : ConnId) : PoolEffect → Option String
  | .enqueued _ msg w => if w.tx = k then some msg else none
  | _ => none

def SocketRequest.text? : SocketRequest → Option String
  | .text s => some s
  | _ => none

/-- No thread ends and nobody stops the workers. -/
def PoolEvent.calm : PoolEvent → Bool
  | .send _ => true
  | .call _ => true
  | .sentinel _ => true
  | _ => false

/-- The sentinel has met no dead worker. -/
def Sentinel.AtEase : Sentinel → Prop
  | .asleep => True
  | .visiting _ .pinging => True
  | .visiting _ .pinged => True
  | _ => False

namespace Pool

/-! ## Conservation -/

/-- The workers lost along a trace. -/
def lost (tr : List (PoolEvent × Option PoolEffect)) : List SocketWorker :=
  tr.filterMap fun e => e.2.bind PoolEffect.lost

/-- What the effects of a trace tell, with one step more. -/
theorem filterMap_snoc {γ : Type} (f : PoolEffect → Option γ)
    (tr : List (PoolEvent × Option PoolEffect)) (e : PoolEvent) (o : Option PoolEffect) :
    (tr ++ [(e, o)]).filterMap (fun e => e.2.bind f) =
      tr.filterMap (fun e => e.2.bind f) ++ (o.bind f).toList := by
  rw [List.filterMap_append]
  cases h : o.bind f with
  | none => simp [h]
  | some x => simp [h]

section conservation
variable {β : Type} {p p' : Pool} {e : PoolEvent} {o : Option PoolEffect}
  {tr : List (PoolEvent × Option PoolEffect)} {sockets : List SocketWorker} {sends : List Send}

theorem lost_of_call_none (h : o.bind PoolEffect.call = none) : o.bind PoolEffect.lost = none := by
  cases o with
  | none => rfl
  | some effect => cases effect <;> first | rfl | cases h

/-- A change of the `i`-th call, for what the calls have checked out. -/
theorem held_set {i : Nat} {c : Send} (hc : p.sends[i]? = some c) (c' : Send) :
    ((p.sends.set i c').filterMap Send.worker : Multiset SocketWorker) + c.worker.toList =
      p.held + c'.worker.toList :=
  Slots.filterMap_set Send.worker hc c'

/-- The steps of `send` move workers between the deque, the calls and the lost ones. -/
theorem Shift.moves (h : Shift p e o sockets sends) (he : e.quiet = false) :
    (sockets : Multiset SocketWorker) + sends.filterMap Send.worker +
      (o.bind PoolEffect.lost).toList = p.sockets + p.held := by
  cases h with
  | arrives msg =>
      have hheld : (p.sends ++ [({ msg, pc := .start } : Send)]).filterMap Send.worker =
          p.held := by
        rw [List.filterMap_append, List.filterMap_cons_none rfl, List.filterMap_nil,
          List.append_nil, held]
      rw [hheld]
      simp
  | finds i msg call free empty =>
      have hset := held_set call ⟨msg, .posting⟩
      simp only [Send.worker, Option.toList_none, Multiset.coe_nil, add_zero] at hset
      rw [hset]
      simp
  | pops i msg w rest call free front =>
      have hset := held_set call ⟨msg, .holding w⟩
      simp only [Send.worker, Option.toList_none, Option.toList_some, Multiset.coe_nil,
        add_zero] at hset
      rw [hset, front, ← Multiset.cons_coe w sockets, ← Multiset.singleton_add]
      simp only [Option.bind_none, Option.toList_none, Multiset.coe_nil, Multiset.coe_singleton]
      abel
  | enqueues i msg w call alive =>
      have hset := held_set call ⟨msg, .returning w⟩
      simp only [Send.worker, add_left_inj] at hset
      rw [hset]
      simp [PoolEffect.lost]
  | drops i msg w call dead =>
      have hset := held_set call ⟨msg, .posting⟩
      simp only [Send.worker, Option.toList_none, Multiset.coe_nil, add_zero] at hset
      rw [add_assoc, ← hset]
      rfl
  | pushes i msg w call free =>
      have hset := held_set call ⟨msg, .done⟩
      simp only [Send.worker, Option.toList_none, Option.toList_some, Multiset.coe_nil,
        add_zero] at hset
      rw [← hset, ← Multiset.coe_add]
      simp only [Option.bind_none, Option.toList_none, Multiset.coe_nil]
      abel
  | posts i msg call =>
      have hset := held_set call ⟨msg, .done⟩
      simp only [Send.worker, Option.toList_none, Multiset.coe_nil, add_zero] at hset
      rw [hset]
      simp [PoolEffect.lost]
  | repairs i w w' e o quiet silent place id host =>
      rw [quiet] at he
      cases he
  | rests e o quiet silent =>
      rw [quiet] at he
      cases he

/-- The other steps leave the calls alone, and the workers where they are. -/
theorem Shift.keeps (h : Shift p e o sockets sends) (he : e.quiet = true) (f : SocketWorker → β)
    (hf : ∀ w w', w'.id = w.id → w'.host = w.host → f w' = f w) :
    sends = p.sends ∧ o.bind PoolEffect.lost = none ∧ sockets.map f = p.sockets.map f := by
  cases h with
  | repairs i w w' e o quiet silent place id host =>
      refine ⟨rfl, lost_of_call_none silent, ?_⟩
      obtain ⟨hlt, rfl⟩ := List.getElem?_eq_some_iff.mp place
      rw [List.map_set, hf _ w' id host, ← List.getElem_map f (h := by simpa using hlt)]
      exact List.set_getElem_self _
  | rests e o quiet silent => exact ⟨rfl, lost_of_call_none silent, rfl⟩
  | arrives msg => cases he
  | finds i msg call free empty => cases he
  | pops i msg w rest call free front => cases he
  | enqueues i msg w call alive => cases he
  | drops i msg w call dead => cases he
  | pushes i msg w call free => cases he
  | posts i msg call => cases he

theorem Shift.conserves (h : Shift p e o sockets sends) (f : SocketWorker → β)
    (hf : ∀ w w', w'.id = w.id → w'.host = w.host → f w' = f w) :
    (sockets.map f : Multiset β) + (sends.filterMap Send.worker).map f +
      (o.bind PoolEffect.lost).toList.map f = p.sockets.map f + p.held.map f := by
  cases he : e.quiet with
  | true =>
      obtain ⟨rfl, hlost, hsockets⟩ := h.keeps he f hf
      rw [hlost, hsockets]
      simp [held]
  | false =>
      have hmap := congrArg (Multiset.map f) (h.moves he)
      simpa only [Multiset.map_add, Multiset.map_coe] using hmap

theorem lost_snoc : lost (tr ++ [(e, o)]) = lost tr ++ (o.bind PoolEffect.lost).toList :=
  filterMap_snoc PoolEffect.lost tr e o

/-- **Conservation.**  What is in the deque, what the calls have out and what they lost
are the workers of the start, by id and host. -/
theorem conserved_of_run {workers : List SocketWorker} {connections : List Connection}
    (hrun : machine.Run (fresh workers connections) tr p) (f : SocketWorker → β)
    (hf : ∀ w w', w'.id = w.id → w'.host = w.host → f w' = f w) :
    (p.sockets.map f : Multiset β) + p.held.map f + (lost tr).map f = workers.map f := by
  refine hrun.invariant (I := fun tr p =>
    (p.sockets.map f : Multiset β) + p.held.map f + (lost tr).map f = workers.map f) ?_ ?_
  · simp [fresh, held, lost]
  · intro tr t t' e o _ ih hstep
    have hshift := (shift hstep).conserves f hf
    rw [lost_snoc, List.map_append, ← Multiset.coe_add, ← ih, ← hshift, held]
    abel

end conservation

/-! ## Lost workers -/

section lost
variable {workers : List SocketWorker} {connections : List Connection} {p p' : Pool}
  {e : PoolEvent} {o : Option PoolEffect} {tr : List (PoolEvent × Option PoolEffect)}

/-- The step is not that of a call of `send` whose worker is dead. -/
def FindsAlive (p : Pool) (e : PoolEvent) : Prop :=
  ∀ i msg w, e = .call i → p.sends[i]? = some ⟨msg, .holding w⟩ → p.accepts w.tx = true

/-- A step loses a worker exactly when it finds it dead. -/
theorem findsAlive_iff (hstep : machine.step p e = some (o, p')) :
    FindsAlive p e ↔ o.bind PoolEffect.lost = none := by
  have hshift := shift hstep
  generalize p'.sockets = sockets at hshift
  generalize p'.sends = sends at hshift
  have hother : ∀ {i : Nat} {c : Send}, p.sends[i]? = some c → (∀ w, c.pc ≠ .holding w) →
      FindsAlive p (.call i) := by
    intro i c hc hpc j msg w he hcall
    cases he
    obtain rfl := Option.some.inj (hc.symm.trans hcall)
    exact absurd rfl (hpc w)
  have hquiet : e.quiet = true → FindsAlive p e := by
    intro he i msg w hcall _
    rw [hcall] at he
    cases he
  cases hshift with
  | arrives msg =>
      refine iff_of_true ?_ rfl
      intro i msg' w hcall
      cases hcall
  | finds i msg call free empty => exact iff_of_true (hother call (by simp)) rfl
  | pops i msg w rest call free front => exact iff_of_true (hother call (by simp)) rfl
  | enqueues i msg w call alive =>
      refine iff_of_true ?_ rfl
      intro j msg' w' hcall hw'
      cases hcall
      cases Option.some.inj (call.symm.trans hw')
      exact alive
  | drops i msg w call dead =>
      refine iff_of_false ?_ (by simp [PoolEffect.lost])
      intro hfinds
      rw [hfinds i msg w rfl call] at dead
      cases dead
  | pushes i msg w call free => exact iff_of_true (hother call (by simp)) rfl
  | posts i msg call => exact iff_of_true (hother call (by simp)) rfl
  | repairs i w w' e o quiet silent place id host =>
      exact iff_of_true (hquiet quiet) (lost_of_call_none silent)
  | rests e o quiet silent => exact iff_of_true (hquiet quiet) (lost_of_call_none silent)

theorem lost_eq_nil : lost tr = [] ↔ ∀ e ∈ tr, e.2.bind PoolEffect.lost = none :=
  List.filterMap_eq_nil_iff

/-- Every call of `send` is over. -/
def Idle (p : Pool) : Prop := ∀ c ∈ p.sends, c.pc = .done

theorem Idle.held (h : p.Idle) : p.held = [] := by
  refine List.filterMap_eq_nil_iff.mpr ?_
  intro c hc
  rw [Send.worker, h c hc]

/-- **The deque holds the workers of the start whenever no call is in progress exactly
when no call found its worker dead.** -/
theorem slots_kept_iff (hrun : machine.Run (fresh workers connections) tr p) (hidle : p.Idle) :
    (p.sockets.map (·.id)).Perm (workers.map (·.id)) ↔
      machine.Along FindsAlive (fresh workers connections) tr := by
  have hconserved := conserved_of_run hrun (·.id) fun _ _ hid _ => hid
  rw [hidle.held] at hconserved
  rw [hrun.along_iff fun _ hstep => findsAlive_iff hstep, ← lost_eq_nil, ← Multiset.coe_eq_coe,
    ← hconserved]
  simp only [List.map_nil, Multiset.coe_nil, add_zero, left_eq_add, Multiset.coe_eq_zero,
    List.map_eq_nil_iff]

end lost

/-- A worker with id 0 and the connection 0. -/
def soleWorker : SocketWorker := { id := 0, host := "ws://a", tx := 0, thread := some 0 }

/-- A worker with id 1 and the connection 1. -/
def secondWorker : SocketWorker := { id := 1, host := "ws://b", tx := 1, thread := some 1 }

def liveConnection : Connection := { mailbox := [], thread := .running }

/-- While a call has the first of two workers, the thread of the second ends, and the sentinel
connects it again; then a second call sends on it. -/
def deadAndRepaired : List PoolEvent :=
  [.send "m", .call 0, .die 1 .ended,
   .sentinel false, .sentinel false, .sentinel false, .sentinel true, .sentinel true,
   .sentinel true, .sentinel false,
   .call 0, .call 0, .send "n", .call 1, .call 1, .call 1]

/-- Both workers are back, though one had died in between. -/
theorem two_workers_returned : ∃ tr p,
    machine.exec (fresh [soleWorker, secondWorker] [liveConnection, liveConnection])
      deadAndRepaired = some (tr, p) ∧
    p.sockets = [soleWorker, { secondWorker with tx := 2, thread := some 2 }] ∧
    machine.Along FindsAlive (fresh [soleWorker, secondWorker] [liveConnection, liveConnection])
      tr := by
  refine ⟨_, _, rfl, rfl, ?_⟩
  have hrun : machine.Run
      (fresh [soleWorker, secondWorker] [liveConnection, liveConnection]) _ _ :=
    Mealy.run_of_exec (show machine.exec
      (fresh [soleWorker, secondWorker] [liveConnection, liveConnection]) deadAndRepaired =
        some (_, _) from rfl)
  refine (slots_kept_iff hrun ?_).mp (List.Perm.refl _)
  intro c hc
  rcases List.mem_cons.mp hc with rfl | hc
  · rfl
  · obtain rfl := List.mem_singleton.mp hc
    rfl

/-- The worker's thread ends between the checkout and the send: the send drops the
worker, and the deque stays empty. -/
theorem dead_worker_lost : ¬ ∀ (workers : List SocketWorker) (connections : List Connection)
    (tr : List (PoolEvent × Option PoolEffect)) (p : Pool),
    machine.Run (fresh workers connections) tr p → p.Idle →
      (p.sockets.map (·.id)).Perm (workers.map (·.id)) := by
  intro h
  have hrun : machine.Run (fresh [soleWorker] [liveConnection]) _ _ :=
    Mealy.run_of_exec (show machine.exec (fresh [soleWorker] [liveConnection])
      [.send "m", .call 0, .die 0 .ended, .call 0, .call 0] = some (_, _) from rfl)
  have hperm := h [soleWorker] [liveConnection] _ _ hrun ?_
  · exact absurd hperm.length_eq (by decide)
  · intro c hc
    obtain rfl := List.mem_singleton.mp hc
    rfl

/-! ## Live workers -/

/-- The ways the message of the `i`-th call went along a trace. -/
def ways (i : Nat) (tr : List (PoolEvent × Option PoolEffect)) : List PoolEffect :=
  tr.filterMap fun e => e.2.bind fun o => o.way i

/-- The messages enqueued on the connection `k` along a trace, in order. -/
def enqueuedOn (k : ConnId) (tr : List (PoolEvent × Option PoolEffect)) : List String :=
  tr.filterMap fun e => e.2.bind fun o => o.textOn k

/-- The texts in a mailbox. -/
def textsAt (p : Pool) (k : ConnId) : List String :=
  match p.connections[k]? with
  | none => []
  | some c => c.mailbox.filterMap SocketRequest.text?

/-- The message of a call went no way yet, or one: on one worker, or over HTTP when the
call is past that. -/
def Told (workers : List SocketWorker) (tr : List (PoolEvent × Option PoolEffect)) (i : Nat)
    (c : Send) : Prop :=
  match c.pc with
  | .returning w => w ∈ workers ∧ ways i tr = [.enqueued i c.msg w]
  | .done => (∃ w ∈ workers, ways i tr = [.enqueued i c.msg w]) ∨ ways i tr = [.posted i c.msg]
  | _ => ways i tr = []

section live
variable {workers : List SocketWorker} {connections : List Connection} {p p' : Pool}
  {e : PoolEvent} {o : Option PoolEffect} {tr : List (PoolEvent × Option PoolEffect)}
  {sockets : List SocketWorker} {sends : List Send}

theorem ways_snoc (i : Nat) :
    ways i (tr ++ [(e, o)]) = ways i tr ++ (o.bind (PoolEffect.way i)).toList :=
  filterMap_snoc (PoolEffect.way i) tr e o

theorem enqueuedOn_snoc (k : ConnId) :
    enqueuedOn k (tr ++ [(e, o)]) = enqueuedOn k tr ++ (o.bind (PoolEffect.textOn k)).toList :=
  filterMap_snoc (PoolEffect.textOn k) tr e o

/-- Every worker is alive, in the deque or with a call, and the sentinel has nothing to
do. -/
structure Live (workers : List SocketWorker) (p : Pool) : Prop where
  alive : ∀ w ∈ workers, p.accepts w.tx = true
  whole : (p.sockets : Multiset SocketWorker) + p.held = workers
  atEase : p.sentinel.AtEase

theorem deliver_texts {k : ConnId} (h : p.accepts k = true) (req : SocketRequest) (k' : ConnId) :
    (p.deliver k req).textsAt k' = p.textsAt k' ++ if k = k' then req.text?.toList else [] := by
  by_cases hk : k = k'
  · subst hk
    cases hc : p.connections[k]? with
    | none => simp [accepts, hc] at h
    | some c =>
        cases hreq : req.text? with
        | none => simp [textsAt, deliver, hc, hreq]
        | some s => simp [textsAt, deliver, hc, hreq]
  · simp [textsAt, deliver, hk]

/-- A step of `send` touches no thread, and puts into the mailboxes what it reports. -/
theorem sendStep_frame {i : Nat} {c : Send} (h : p.sendStep i c = some (o, p')) :
    p'.threads = p.threads ∧ p'.sentinel = p.sentinel ∧ p'.stop = p.stop ∧
      ∀ k, p'.textsAt k = p.textsAt k ++ (o.bind (PoolEffect.textOn k)).toList := by
  obtain ⟨msg, pc⟩ := c
  cases pc with
  | start =>
      simp only [sendStep] at h
      split at h
      · cases h
      · split at h
        · obtain ⟨rfl, rfl⟩ := Prod.mk.inj (Option.some.inj h)
          exact ⟨rfl, rfl, rfl, fun k => (List.append_nil _).symm⟩
        · obtain ⟨rfl, rfl⟩ := Prod.mk.inj (Option.some.inj h)
          exact ⟨rfl, rfl, rfl, fun k => (List.append_nil _).symm⟩
  | holding w =>
      simp only [sendStep] at h
      split at h
      · rename_i halive
        obtain ⟨rfl, rfl⟩ := Prod.mk.inj (Option.some.inj h)
        refine ⟨deliver_threads (p := p) w.tx (.text msg), rfl, rfl, ?_⟩
        intro k
        refine (deliver_texts halive (.text msg) k).trans ?_
        by_cases hk : w.tx = k
        · simp [hk, PoolEffect.textOn, SocketRequest.text?]
        · simp [hk, PoolEffect.textOn]
      · obtain ⟨rfl, rfl⟩ := Prod.mk.inj (Option.some.inj h)
        exact ⟨rfl, rfl, rfl, fun k => (List.append_nil _).symm⟩
  | returning w =>
      simp only [sendStep] at h
      split at h
      · cases h
      · obtain ⟨rfl, rfl⟩ := Prod.mk.inj (Option.some.inj h)
        exact ⟨rfl, rfl, rfl, fun k => (List.append_nil _).symm⟩
  | posting =>
      obtain ⟨rfl, rfl⟩ := Prod.mk.inj (Option.some.inj h)
      exact ⟨rfl, rfl, rfl, fun k => (List.append_nil _).symm⟩
  | done => cases h

/-- With all workers of the deque alive, the sentinel only pings. -/
theorem sentinelStep_of_alive {outcome : Bool} (hease : p.sentinel.AtEase)
    (halive : ∀ w ∈ p.sockets, p.accepts w.tx = true)
    (h : p.sentinelStep outcome = some p') :
    p'.sentinel.AtEase ∧ p'.sockets = p.sockets ∧ p'.sends = p.sends ∧ p'.stop = p.stop ∧
      p'.threads = p.threads ∧ ∀ k, p'.textsAt k = p.textsAt k := by
  cases hsentinel : p.sentinel with
  | asleep =>
      simp only [sentinelStep, hsentinel] at h
      split at h
      · cases h
      · obtain rfl := Option.some.inj h
        exact ⟨trivial, rfl, rfl, rfl, rfl, fun _ => rfl⟩
  | panicked => simp [sentinelStep, hsentinel] at h
  | visiting i pc =>
      rw [hsentinel] at hease
      cases hw : p.sockets[i]? with
      | none =>
          simp only [sentinelStep, hsentinel, hw, Option.some.injEq] at h
          subst h
          exact ⟨trivial, rfl, rfl, rfl, rfl, fun _ => rfl⟩
      | some w =>
          have haccepts := halive w (List.mem_of_getElem? hw)
          simp only [sentinelStep, hsentinel, hw] at h
          cases pc with
          | pinging =>
              simp only [visit, haccepts, if_true, Option.some.injEq] at h
              subst h
              refine ⟨trivial, rfl, rfl, rfl, deliver_threads (p := p) w.tx .ping, ?_⟩
              intro k
              refine (deliver_texts haccepts .ping k).trans ?_
              simp [SocketRequest.text?]
          | pinged =>
              simp only [visit, haccepts, if_true] at h
              split at h
              · obtain rfl := Option.some.inj h
                exact ⟨trivial, rfl, rfl, rfl, rfl, fun _ => rfl⟩
              · cases h
          | reconnecting => exact absurd hease id
          | asked => exact absurd hease id
          | connecting => exact absurd hease id
          | checking => exact absurd hease id
          | askedAgain => exact absurd hease id

/-- An effect says nothing about the calls it is not about. -/
theorem way_of_ne {j : Nat} (h : o.bind PoolEffect.call ≠ some j) :
    o.bind (PoolEffect.way j) = none := by
  cases o with
  | none => rfl
  | some effect =>
      cases effect with
      | enqueued i msg w => exact if_neg fun hij => h (congrArg some hij)
      | posted i msg => exact if_neg fun hij => h (congrArg some hij)
      | refused i w => rfl
      | stopSent i => rfl
      | stopReturned ok => rfl

/-- A step of the `i`-th call speaks of no other call. -/
theorem Shift.call_eq {i j : Nat} (h : Shift p (.call i) o sockets sends)
    (ho : o.bind PoolEffect.call = some j) : j = i := by
  cases h with
  | finds i msg call free empty => cases ho
  | pops i msg w rest call free front => cases ho
  | enqueues i msg w call alive => exact (Option.some.inj ho).symm
  | drops i msg w call dead => exact (Option.some.inj ho).symm
  | pushes i msg w call free => cases ho
  | posts i msg call => exact (Option.some.inj ho).symm
  | repairs i w w' e o quiet silent place id host => cases quiet
  | rests e o quiet silent => cases quiet

theorem Told.congr {tr' : List (PoolEvent × Option PoolEffect)} {i : Nat} {c : Send}
    (h : Told workers tr i c) (hways : ways i tr' = ways i tr) : Told workers tr' i c := by
  obtain ⟨msg, pc⟩ := c
  cases pc with
  | start => exact hways.trans h
  | holding w => exact hways.trans h
  | posting => exact hways.trans h
  | returning w => exact ⟨h.1, hways.trans h.2⟩
  | done =>
      rcases h with ⟨w, hw, h⟩ | h
      · exact Or.inl ⟨w, hw, hways.trans h⟩
      · exact Or.inr (hways.trans h)

/-- While all workers are alive: each message goes one way, nothing is lost, and the
mailboxes hold what was enqueued on them. -/
structure Used (workers : List SocketWorker) (connections : List Connection)
    (tr : List (PoolEvent × Option PoolEffect)) (p : Pool) : Prop extends Live workers p where
  told : ∀ (i : Nat) (c : Send), p.sends[i]? = some c → Told workers tr i c
  untold : ∀ i, p.sends.length ≤ i → ways i tr = []
  none_lost : lost tr = []
  texts : ∀ k, p.textsAt k = (fresh workers connections).textsAt k ++ enqueuedOn k tr

theorem used_fresh (halive : ∀ w ∈ workers, (fresh workers connections).accepts w.tx = true) :
    Used workers connections [] (fresh workers connections) where
  alive := halive
  whole := by simp [fresh, held]
  atEase := trivial
  told := by simp [fresh]
  untold := by simp [ways]
  none_lost := rfl
  texts := by simp [enqueuedOn]

/-- The worker a call has out is one of the pool's. -/
theorem Live.mem_of_worker (h : Live workers p) {i : Nat} {c : Send} (hc : p.sends[i]? = some c)
    {w : SocketWorker} (hw : c.worker = some w) : w ∈ workers := by
  have hheld : w ∈ p.held := List.mem_filterMap.mpr ⟨c, List.mem_of_getElem? hc, hw⟩
  have hall : w ∈ (workers : Multiset SocketWorker) := by
    rw [← h.whole]
    exact Multiset.mem_add.mpr (Or.inr (Multiset.mem_coe.mpr hheld))
  exact Multiset.mem_coe.mp hall

theorem Live.mem_of_sockets (h : Live workers p) {w : SocketWorker} (hw : w ∈ p.sockets) :
    w ∈ workers := by
  have hall : w ∈ (workers : Multiset SocketWorker) := by
    rw [← h.whole]
    exact Multiset.mem_add.mpr (Or.inl (Multiset.mem_coe.mpr hw))
  exact Multiset.mem_coe.mp hall

/-- What a step of the `i`-th call makes of its account. -/
theorem Used.told_call (h : Used workers connections tr p) {i : Nat}
    (hshift : Shift p (.call i) o sockets sends) :
    o.bind PoolEffect.lost = none ∧ ∃ c', sends = p.sends.set i c' ∧
      Told workers (tr ++ [(.call i, o)]) i c' := by
  cases hshift with
  | finds i msg call free empty =>
      have htold : ways i tr = [] := h.told i _ call
      refine ⟨rfl, _, rfl, ?_⟩
      show ways i (tr ++ [(.call i, none)]) = []
      rw [ways_snoc, htold]
      rfl
  | pops i msg w rest call free front =>
      have htold : ways i tr = [] := h.told i _ call
      refine ⟨rfl, _, rfl, ?_⟩
      show ways i (tr ++ [(.call i, none)]) = []
      rw [ways_snoc, htold]
      rfl
  | enqueues i msg w call alive =>
      have htold : ways i tr = [] := h.told i _ call
      refine ⟨rfl, _, rfl, h.toLive.mem_of_worker call rfl, ?_⟩
      rw [ways_snoc, htold]
      simp [PoolEffect.way]
  | drops i msg w call dead =>
      rw [h.alive w (h.toLive.mem_of_worker call rfl)] at dead
      cases dead
  | pushes i msg w call free =>
      obtain ⟨hw, htold⟩ : w ∈ workers ∧ ways i tr = [.enqueued i msg w] := h.told i _ call
      refine ⟨rfl, _, rfl, Or.inl ⟨w, hw, ?_⟩⟩
      rw [ways_snoc, htold]
      rfl
  | posts i msg call =>
      have htold : ways i tr = [] := h.told i _ call
      refine ⟨rfl, _, rfl, Or.inr ?_⟩
      rw [ways_snoc, htold]
      simp [PoolEffect.way]
  | repairs i w w' e o quiet silent place id host => cases quiet
  | rests e o quiet silent => cases quiet

theorem lost_snoc_of_none (h : lost tr = []) (ho : o.bind PoolEffect.lost = none) :
    lost (tr ++ [(e, o)]) = [] := by
  rw [lost_snoc, h, ho]
  rfl

/-- A calm step keeps the account. -/
theorem Used.step (h : Used workers connections tr p) (he : e.calm = true)
    (hstep : machine.step p e = some (o, p')) :
    Used workers connections (tr ++ [(e, o)]) p' := by
  cases e with
  | die k how => cases he
  | stop => cases he
  | stopNext => cases he
  | send msg =>
      have hmoves := (shift hstep).moves rfl
      obtain ⟨rfl, rfl⟩ := Prod.mk.inj (Option.some.inj hstep)
      have hsilent : ∀ i, ways i (tr ++ [(.send msg, none)]) = ways i tr := by
        intro i
        rw [ways_snoc]
        exact List.append_nil _
      refine { alive := h.alive, whole := ?_, atEase := h.atEase, told := ?_, untold := ?_,
               none_lost := lost_snoc_of_none h.none_lost rfl, texts := ?_ }
      · exact (add_zero _).symm.trans (hmoves.trans h.whole)
      · intro i c hc
        rcases Slots.getElem?_snoc_cases hc with hc | ⟨rfl, rfl⟩
        · exact (h.told i c hc).congr (hsilent i)
        · exact (hsilent _).trans (h.untold _ le_rfl)
      · intro i hi
        rw [hsilent]
        refine h.untold i (Nat.le_trans ?_ hi)
        simp
      · intro k
        rw [enqueuedOn_snoc]
        exact (h.texts k).trans (congrArg _ (List.append_nil _).symm)
  | call i =>
      have hmoves := (shift hstep).moves rfl
      obtain ⟨c, hc, hcall⟩ := Option.bind_eq_some_iff.mp hstep
      obtain ⟨hthreads, hsentinel, _, htexts⟩ := sendStep_frame hcall
      obtain ⟨hlost, c', hsends, htold⟩ := h.told_call (shift hstep)
      have hlt := Slots.lt_of_getElem? hc
      have hother : ∀ j, j ≠ i → ways j (tr ++ [(.call i, o)]) = ways j tr := by
        intro j hj
        rw [ways_snoc, way_of_ne]
        · exact List.append_nil _
        · intro ho
          exact hj ((shift hstep).call_eq ho)
      refine { alive := ?_, whole := ?_, atEase := ?_, told := ?_, untold := ?_,
               none_lost := lost_snoc_of_none h.none_lost hlost, texts := ?_ }
      · intro w hw
        rw [accepts_congr hthreads]
        exact h.alive w hw
      · rw [hlost] at hmoves
        exact (add_zero _).symm.trans (hmoves.trans h.whole)
      · rw [hsentinel]
        exact h.atEase
      · intro j x hx
        rw [hsends] at hx
        rcases Slots.getElem?_set_cases hx with ⟨rfl, rfl⟩ | ⟨hj, hx⟩
        · exact htold
        · exact (h.told j x hx).congr (hother j hj)
      · intro j hj
        rw [hsends, List.length_set] at hj
        rw [hother j (by omega)]
        exact h.untold j hj
      · intro k
        rw [htexts, enqueuedOn_snoc, h.texts, List.append_assoc]
  | sentinel outcome =>
      obtain ⟨q, hq, hstep⟩ := Option.map_eq_some_iff.mp hstep
      obtain ⟨rfl, rfl⟩ := Prod.mk.inj hstep
      obtain ⟨hease, hsockets, hsends, _, hthreads, htexts⟩ := sentinelStep_of_alive h.atEase
        (fun w hw => h.alive w (h.toLive.mem_of_sockets hw)) hq
      have hsilent : ∀ i, ways i (tr ++ [(.sentinel outcome, none)]) = ways i tr := by
        intro i
        rw [ways_snoc]
        exact List.append_nil _
      refine { alive := ?_, whole := ?_, atEase := hease, told := ?_, untold := ?_,
               none_lost := lost_snoc_of_none h.none_lost rfl, texts := ?_ }
      · intro w hw
        rw [accepts_congr hthreads]
        exact h.alive w hw
      · rw [held, hsockets, hsends]
        exact h.whole
      · intro i c hc
        rw [hsends] at hc
        exact (h.told i c hc).congr (hsilent i)
      · intro i hi
        rw [hsends] at hi
        rw [hsilent]
        exact h.untold i hi
      · intro k
        rw [htexts, enqueuedOn_snoc]
        exact (h.texts k).trans (congrArg _ (List.append_nil _).symm)

/-- A run of calm steps keeps the account. -/
theorem used_of_run (hrun : machine.Run (fresh workers connections) tr p)
    (hcalm : ∀ e ∈ tr, e.1.calm = true)
    (halive : ∀ w ∈ workers, (fresh workers connections).accepts w.tx = true) :
    Used workers connections tr p := by
  refine hrun.invariant_along (C := fun _ e => e.calm = true) (I := Used workers connections)
    (Mealy.along_of_forall fun e he _ => hcalm e he) (used_fresh halive) ?_
  intro tr t t' e o _ he ih hstep
  exact ih.step he hstep

/-- All workers are out exactly when the deque is empty. -/
theorem Live.held_perm_iff (h : Live workers p) : p.held.Perm workers ↔ p.sockets = [] := by
  rw [← Multiset.coe_eq_coe, ← h.whole, right_eq_add, Multiset.coe_eq_zero]

/-- A call goes to HTTP from the pop of an empty deque. -/
theorem Live.posting_iff (h : Live workers p) {i : Nat} {c : Send} (hc : p.sends[i]? = some c)
    (hstep : machine.step p (.call i) = some (o, p')) :
    p'.sends[i]? = some ⟨c.msg, .posting⟩ ↔ c.pc = .start ∧ p.held.Perm workers := by
  have hlt := Slots.lt_of_getElem? hc
  have hshift := shift hstep
  generalize p'.sockets = sockets at hshift
  generalize p'.sends = sends at hshift
  -- the call the step is about is `c`
  have hself : ∀ {c' : Send}, p.sends[i]? = some c' → c = c' := fun hc' =>
    Option.some.inj (hc.symm.trans hc')
  rw [h.held_perm_iff]
  cases hshift with
  | finds i msg call free empty =>
      obtain rfl := hself call
      exact iff_of_true (List.getElem?_set_self hlt) ⟨rfl, empty⟩
  | pops i msg w rest call free front =>
      obtain rfl := hself call
      simp [List.getElem?_set_self hlt, front]
  | enqueues i msg w call alive =>
      obtain rfl := hself call
      simp [List.getElem?_set_self hlt]
  | drops i msg w call dead =>
      have hw := h.mem_of_worker call (w := w) rfl
      rw [h.alive w hw] at dead
      cases dead
  | pushes i msg w call free =>
      obtain rfl := hself call
      simp [List.getElem?_set_self hlt]
  | posts i msg call =>
      obtain rfl := hself call
      simp [List.getElem?_set_self hlt]
  | repairs i w w' e o quiet silent place id host => cases quiet
  | rests e o quiet silent => cases quiet

/-- **Live workers.**  While all workers are alive, a message goes one way, once; the way
is HTTP exactly for the calls that find all workers out; no worker is lost, the deque is
whole again when no call is in progress, and the mailboxes hold what was enqueued. -/
theorem live_workers_used (hrun : machine.Run (fresh workers connections) tr p)
    (hcalm : ∀ e ∈ tr, e.1.calm = true)
    (halive : ∀ w ∈ workers, (fresh workers connections).accepts w.tx = true) :
    (∀ (i : Nat) (c : Send), p.sends[i]? = some c → Told workers tr i c) ∧
    (∀ (i : Nat) (c : Send) (o : Option PoolEffect) (p' : Pool), p.sends[i]? = some c →
      machine.step p (.call i) = some (o, p') →
      (p'.sends[i]? = some ⟨c.msg, .posting⟩ ↔ c.pc = .start ∧ p.held.Perm workers)) ∧
    lost tr = [] ∧
    (p.Idle → p.sockets.Perm workers) ∧
    ∀ k, p.textsAt k = (fresh workers connections).textsAt k ++ enqueuedOn k tr := by
  have hused := used_of_run hrun hcalm halive
  refine ⟨hused.told, ?_, hused.none_lost, ?_, hused.texts⟩
  · intro i c o p' hc hstep
    exact hused.toLive.posting_iff hc hstep
  · intro hidle
    have hwhole := hused.whole
    rw [hidle.held, Multiset.coe_nil, add_zero] at hwhole
    exact Multiset.coe_eq_coe.mp hwhole

end live

/-- Two calls on two live workers: both workers are out, and the third call posts. -/
theorem third_send_posts : ∃ tr p,
    machine.exec (fresh [soleWorker, secondWorker] [liveConnection, liveConnection])
      [.send "a", .send "b", .send "c", .call 0, .call 1, .call 2, .call 0, .call 2,
        .call 1] = some (tr, p) ∧
    (∀ (i : Nat) (c : Send), p.sends[i]? = some c →
      Told [soleWorker, secondWorker] tr i c) ∧ lost tr = [] := by
  refine ⟨_, _, rfl, ?_⟩
  have hrun : machine.Run (fresh [soleWorker, secondWorker] [liveConnection, liveConnection])
      _ _ := Mealy.run_of_exec (show machine.exec
        (fresh [soleWorker, secondWorker] [liveConnection, liveConnection])
        [.send "a", .send "b", .send "c", .call 0, .call 1, .call 2, .call 0, .call 2,
          .call 1] = some (_, _) from rfl)
  have hused := live_workers_used hrun (by simp [PoolEvent.calm])
    (by simp [fresh, accepts, soleWorker, secondWorker, liveConnection])
  exact ⟨hused.1, hused.2.2.1⟩

/-- One live worker and two calls: the second finds the deque empty and takes the HTTP
path. -/
theorem live_worker_bypassed : ¬ ∀ (workers : List SocketWorker) (connections : List Connection)
    (tr : List (PoolEvent × Option PoolEffect)) (p : Pool), workers ≠ [] →
    (∀ w ∈ workers, (fresh workers connections).accepts w.tx = true) →
    (∀ e ∈ tr, e.1.quiet = false) → machine.Run (fresh workers connections) tr p →
    ∀ i msg, ∀ e ∈ tr, e.2 ≠ some (.posted i msg) := by
  intro h
  have hrun : machine.Run (fresh [soleWorker] [liveConnection]) _ _ :=
    Mealy.run_of_exec (show machine.exec (fresh [soleWorker] [liveConnection])
      [.send "a", .send "b", .call 0, .call 1, .call 1] = some (_, _) from rfl)
  refine h [soleWorker] [liveConnection] _ _ (by simp) ?_ ?_ hrun 1 "b" (.call 1, _) ?_ rfl
  · simp [fresh, accepts, soleWorker, liveConnection]
  · simp [PoolEvent.quiet]
  · simp

end Pool

end Ethereyum
