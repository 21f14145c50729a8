/-
# `RoundRobin` — whose turn it is to send

A call of `send` takes the front worker and puts it back at the end, so calls that come
one after another deal the messages out in turn:

    deque           w₀ w₁ w₂      w₁ w₂ w₀      w₂ w₀ w₁      w₀ w₁ w₂
    messages               m₀ → w₀       m₁ → w₁       m₂ → w₂       …

The sentinel may be in the middle of a pass at any time; as long as the workers are
alive it moves none of them.  `dealing_of_run` follows a run step by step, from one
place in a call to the next (`Dealer`), and `Dealing.dealt` says what comes of it when the
calls are over.  `Reached.turns` is the other half: sends and passes of the sentinel can
follow each other in any order.
-/
import Ethereyum.Checkout
import Mathlib.Data.List.Rotate

namespace Ethereyum

namespace Pool

/-! ## Taking turns -/

/-- The worker whose turn the `j`-th message is. -/
def turnOf (workers : List SocketWorker) (j : Nat) : Option SocketWorker :=
  workers[j % workers.length]?

/-- What is reported when the messages are dealt out in turn. -/
def deal (workers : List SocketWorker) (msgs : List String) : List PoolEffect :=
  msgs.zipIdx.filterMap fun m => (turnOf workers m.2).map (.enqueued m.2 m.1)

/-- The messages whose turn is that of a worker on the connection `k`, in order. -/
def mailFor (workers : List SocketWorker) (k : ConnId) (msgs : List String) : List String :=
  msgs.zipIdx.filterMap fun m =>
    (turnOf workers m.2).bind fun w => if w.tx = k then some m.1 else none

/-- All that was reported along a trace. -/
def effects (tr : List (PoolEvent × Option PoolEffect)) : List PoolEffect := tr.filterMap (·.2)

/-- A call of `send` begins when no other is in progress. -/
def Sequential (p : Pool) : PoolEvent → Prop
  | .send _ => p.Idle
  | _ => True

/-- The messages of the calls were dealt out in turn: each went to one worker, the
mailboxes have them in order, and the deque has moved on by one place for each. -/
structure Dealt (workers : List SocketWorker) (connections : List Connection)
    (tr : List (PoolEvent × Option PoolEffect)) (p : Pool) : Prop where
  once : ∀ (j : Nat) (c : Send), p.sends[j]? = some c →
    ∃ w, turnOf workers j = some w ∧ ways j tr = [.enqueued j c.msg w]
  mail : ∀ k, p.textsAt k =
    (fresh workers connections).textsAt k ++ mailFor workers k (p.sends.map (·.msg))
  sockets : p.sockets = workers.rotate (p.sends.length % workers.length)

section deals
variable {workers : List SocketWorker} {msgs : List String} {msg : String} {w : SocketWorker}
  {rest : List SocketWorker} {n j : Nat}

/-- The front of the deque is the worker whose turn it is. -/
theorem turnOf_of_front (h : w :: rest = workers.rotate n) : turnOf workers n = some w := by
  have hpos : 0 < workers.length := by
    have hlen := congrArg List.length h
    rw [List.length_rotate, List.length_cons] at hlen
    omega
  have hfront := congrArg List.head? h
  rw [← List.rotate_mod, List.head?_rotate (Nat.mod_lt _ hpos)] at hfront
  exact hfront.symm

/-- With the front put back at the end it is the next one's turn. -/
theorem back_of_front (h : w :: rest = workers.rotate n) :
    rest ++ [w] = workers.rotate (n + 1) := by
  rw [← List.rotate_rotate, ← h, List.rotate_cons_succ, List.rotate_zero]

theorem deal_snoc (msg : String) (h : turnOf workers msgs.length = some w) :
    deal workers (msgs ++ [msg]) = deal workers msgs ++ [.enqueued msgs.length msg w] := by
  simp [deal, List.zipIdx_append, h]

theorem exists_turnOf (hne : workers ≠ []) (j : Nat) : ∃ w, turnOf workers j = some w :=
  ⟨_, List.getElem?_eq_getElem (Nat.mod_lt j (List.length_pos_iff.mpr hne))⟩

/-- Each message is dealt once. -/
theorem way_deal (hw : turnOf workers j = some w) (h : msgs[j]? = some msg) :
    (deal workers msgs).filterMap (PoolEffect.way j) = [.enqueued j msg w] := by
  have hway : ∀ m : String × Nat, ((turnOf workers m.2).map (.enqueued m.2 m.1)).bind
      (PoolEffect.way j) = if m.2 = j then some (.enqueued j m.1 w) else none := by
    rintro ⟨msg, i⟩
    by_cases hij : i = j
    · subst hij
      simp [hw, PoolEffect.way]
    · cases turnOf workers i <;> simp [hij, PoolEffect.way]
  rw [deal, List.filterMap_filterMap, List.filterMap_congr fun m _ => hway m,
    Slots.filterMap_zipIdx (fun msg => some (PoolEffect.enqueued j msg w)), h]
  rfl

/-- The texts dealt to a connection. -/
theorem textOn_deal (k : ConnId) :
    (deal workers msgs).filterMap (PoolEffect.textOn k) = mailFor workers k msgs := by
  rw [deal, List.filterMap_filterMap, mailFor]
  refine List.filterMap_congr ?_
  rintro ⟨msg, j⟩ _
  cases turnOf workers j with
  | none => rfl
  | some w => rfl

end deals

/-! ## Step by step -/

/-- The `j`-th call is in progress: where the deque is then, and how many messages were
enqueued. -/
def During (workers sockets : List SocketWorker) (j n : Nat) : SendPc → Prop
  | .start => n = j ∧ sockets = workers.rotate j
  | .holding w => n = j ∧ w :: sockets = workers.rotate j
  | .returning w => n = j + 1 ∧ w :: sockets = workers.rotate j
  | .posting => False
  | .done => False

/-- `Dealer workers sends sockets n`: `n` messages were dealt out in turn, and no call is
in progress or the last one is. -/
inductive Dealer (workers : List SocketWorker) (sends : List Send) (sockets : List SocketWorker)
    (n : Nat) : Prop
  | idle (finished : ∀ c ∈ sends, c.pc = .done) (count : n = sends.length)
      (deque : sockets = workers.rotate n)
  | busy (past : List Send) (c : Send) (finished : ∀ c ∈ past, c.pc = .done)
      (calls : sends = past ++ [c]) (place : During workers sockets past.length n c.pc)

section dealing
variable {workers sockets : List SocketWorker} {sends : List Send} {connections : List Connection}
  {p p' : Pool} {e : PoolEvent} {o : Option PoolEffect} {n i : Nat} {c : Send}
  {tr : List (PoolEvent × Option PoolEffect)}

/-- While a call is in progress the calls are not over. -/
theorem During.not_idle {past : List Send} (h : During workers sockets i n c.pc)
    (calls : p.sends = past ++ [c]) : ¬ p.Idle := by
  intro hidle
  have hmem : c ∈ p.sends := by
    rw [calls]
    exact List.mem_append_right _ List.mem_cons_self
  rw [hidle c hmem] at h
  exact h

/-- A call that is not over is the last one. -/
theorem Dealer.current (h : Dealer workers sends sockets n) (hc : sends[i]? = some c)
    (hpc : c.pc ≠ .done) : ∃ past, (∀ c ∈ past, c.pc = .done) ∧ sends = past ++ [c] ∧
      i = past.length ∧ During workers sockets i n c.pc := by
  cases h with
  | idle finished count deque => exact absurd (finished c (List.mem_of_getElem? hc)) hpc
  | busy past c' finished calls place =>
      rw [calls] at hc
      rcases Slots.getElem?_snoc_cases hc with hold | ⟨rfl, rfl⟩
      · exact absurd (finished c (List.mem_of_getElem? hold)) hpc
      · exact ⟨past, finished, calls, rfl, place⟩

/-- A step of a call moves it to its next place, and reports the message when it is
enqueued. -/
theorem Dealer.call (h : Dealer workers p.sends p.sockets n) (hlive : Live workers p)
    (hne : workers ≠ []) (hshift : Shift p (.call i) o sockets sends) :
    ∃ n', Dealer workers sends sockets n' ∧ deal workers ((sends.map (·.msg)).take n') =
      deal workers ((p.sends.map (·.msg)).take n) ++ o.toList := by
  -- the calls with another place for the last one
  have hset : ∀ (past : List Send) (c c' : Send),
      (past ++ [c]).set past.length c' = past ++ [c'] := by
    intro past c c'
    rw [List.set_append_right _ _ le_rfl, Nat.sub_self]
    rfl
  cases hshift with
  | finds i msg call free empty =>
      obtain ⟨past, finished, calls, rfl, rfl, deque⟩ := h.current call (by simp)
      rw [empty] at deque
      exact absurd (List.rotate_eq_nil_iff.mp deque.symm) hne
  | pops i msg w rest call free front =>
      obtain ⟨past, finished, calls, rfl, rfl, deque⟩ := h.current call (by simp)
      rw [calls, hset]
      refine ⟨past.length, .busy past _ finished rfl ⟨rfl, front ▸ deque⟩, ?_⟩
      simp
  | enqueues i msg w call alive =>
      obtain ⟨past, finished, calls, rfl, rfl, deque⟩ := h.current call (by simp)
      rw [calls, hset]
      refine ⟨past.length + 1, .busy past _ finished rfl ⟨rfl, deque⟩, ?_⟩
      have hturn : turnOf workers (past.map (·.msg)).length = some w := by
        rw [List.length_map]
        exact turnOf_of_front deque
      have hdeal := deal_snoc msg hturn
      rw [List.map_append, List.map_append, List.take_of_length_le (by simp),
        List.take_left' (List.length_map _)]
      rw [List.length_map] at hdeal
      exact hdeal
  | drops i msg w call dead =>
      rw [hlive.alive w (hlive.mem_of_worker call rfl)] at dead
      cases dead
  | pushes i msg w call free =>
      obtain ⟨past, finished, calls, rfl, rfl, deque⟩ := h.current call (by simp)
      rw [calls, hset]
      refine ⟨past.length + 1, .idle ?_ (by simp) (back_of_front deque), by simp⟩
      intro c hc
      rcases List.mem_append.mp hc with hpast | hlast
      · exact finished c hpast
      · rw [List.mem_singleton.mp hlast]
  | posts i msg call =>
      obtain ⟨_, _, _, _, place⟩ := h.current call (by simp)
      exact place.elim
  | repairs i w w' e o quiet silent place id host => cases quiet
  | rests e o quiet silent => cases quiet

/-- While the workers are alive and the calls come one after another: what was reported
are the messages dealt out in turn. -/
structure Dealing (workers : List SocketWorker) (connections : List Connection)
    (tr : List (PoolEvent × Option PoolEffect)) (p : Pool) : Prop
    extends Used workers connections tr p where
  dealer : ∃ n, Dealer workers p.sends p.sockets n ∧
    effects tr = deal workers ((p.sends.map (·.msg)).take n)

theorem effects_snoc : effects (tr ++ [(e, o)]) = effects tr ++ o.toList := by
  cases o <;> simp [effects]

theorem Dealing.step (h : Dealing workers connections tr p) (hne : workers ≠ [])
    (he : e.calm = true) (hseq : Sequential p e) (hstep : machine.step p e = some (o, p')) :
    Dealing workers connections (tr ++ [(e, o)]) p' := by
  have hused := h.toUsed.step he hstep
  obtain ⟨n, hdealer, heffects⟩ := h.dealer
  refine { hused with dealer := ?_ }
  rw [effects_snoc, heffects]
  cases e with
  | die k how => cases he
  | stop => cases he
  | stopNext => cases he
  | send msg =>
      obtain ⟨rfl, rfl⟩ := Prod.mk.inj (Option.some.inj hstep)
      cases hdealer with
      | busy past c finished calls place =>
          exact (place.not_idle calls hseq).elim
      | idle finished count deque =>
          refine ⟨n, .busy p.sends _ finished rfl ⟨count, count ▸ deque⟩, ?_⟩
          have hall : n = (p.sends.map (·.msg)).length := by rw [count, List.length_map]
          rw [List.map_append, List.take_left' hall.symm, hall, List.take_length]
          exact List.append_nil _
  | call i =>
      have hshift := shift hstep
      obtain ⟨n', hdealer', hdeal⟩ := hdealer.call h.toLive hne hshift
      exact ⟨n', hdealer', hdeal.symm⟩
  | sentinel outcome =>
      obtain ⟨q, hq, heq⟩ := Option.map_eq_some_iff.mp hstep
      obtain ⟨rfl, rfl⟩ := Prod.mk.inj heq
      obtain ⟨_, hsockets, hsends, _⟩ := sentinelStep_of_alive h.atEase
        (fun w hw => h.alive w (h.toLive.mem_of_sockets hw)) hq
      rw [hsockets, hsends]
      exact ⟨n, hdealer, List.append_nil _⟩

theorem dealing_fresh (halive : ∀ w ∈ workers, (fresh workers connections).accepts w.tx = true) :
    Dealing workers connections [] (fresh workers connections) :=
  { used_fresh halive with
    dealer := ⟨0, .idle (by simp [fresh]) rfl (List.rotate_zero workers).symm, rfl⟩ }

/-- The messages of a run of calm steps are dealt out in turn. -/
theorem dealing_of_run (hrun : machine.Run (fresh workers connections) tr p)
    (hne : workers ≠ []) (hcalm : ∀ e ∈ tr, e.1.calm = true)
    (hseq : machine.Along Sequential (fresh workers connections) tr)
    (halive : ∀ w ∈ workers, (fresh workers connections).accepts w.tx = true) :
    Dealing workers connections tr p := by
  refine hrun.invariant_along (C := fun p e => e.calm = true ∧ Sequential p e)
    (I := Dealing workers connections) ?_ (dealing_fresh halive) ?_
  · intro pre post e o t htr hpre
    refine ⟨hcalm (e, o) ?_, hseq pre post e o t htr hpre⟩
    rw [htr]
    exact List.mem_append_right _ List.mem_cons_self
  · rintro tr t t' e o _ ⟨he, hsequential⟩ ih hstep
    exact ih.step hne he hsequential hstep

/-- When the calls are over. -/
theorem Dealing.dealt (h : Dealing workers connections tr p) (hne : workers ≠ [])
    (hidle : p.Idle) : Dealt workers connections tr p := by
  obtain ⟨n, hdealer, heffects⟩ := h.dealer
  cases hdealer with
  | busy past c finished calls place =>
      exact (place.not_idle calls hidle).elim
  | idle finished count deque =>
      rw [count, ← List.length_map (·.msg), List.take_length] at heffects
      refine { once := ?_, mail := ?_, sockets := ?_ }
      · intro j c hc
        obtain ⟨w, hw⟩ := exists_turnOf hne j
        refine ⟨w, hw, ?_⟩
        have hmsg : (p.sends.map (·.msg))[j]? = some c.msg := by simp [hc]
        rw [← way_deal hw hmsg, ← heffects, effects, List.filterMap_filterMap]
        rfl
      · intro k
        rw [h.texts k, ← textOn_deal, ← heffects, effects, List.filterMap_filterMap]
        rfl
      · rw [List.rotate_mod, deque, count]

end dealing

/-! ## Turn after turn -/

/-- What happens between two moments of rest: a call of `send`, or a pass of the sentinel. -/
inductive Turn where
  | send (msg : String)
  | pass

/-- The steps of some turns, after `m` messages, when `n` workers are in the deque. -/
def schedule (n : Nat) : Nat → List Turn → List PoolEvent
  | _, [] => []
  | m, .send msg :: turns => [.send msg, .call m, .call m, .call m] ++ schedule n (m + 1) turns
  -- it wakes up, sends a ping to each worker and gets its pong, and sleeps again
  | m, .pass :: turns => List.replicate (2 * n + 2) (.sentinel true) ++ schedule n m turns

/-- The messages of some turns. -/
def sent : List Turn → List String
  | [] => []
  | .send msg :: turns => msg :: sent turns
  | .pass :: turns => sent turns

/-- No call is in progress, and nobody has the lock. -/
structure AtRest (p : Pool) : Prop where
  idle : p.Idle
  asleep : p.sentinel = .asleep
  unstopped : p.stop = .idle

/-- The inputs `evs` lead to `p`, and the messages were dealt out in turn. -/
def Reached (workers : List SocketWorker) (connections : List Connection)
    (evs : List PoolEvent) (p : Pool) : Prop :=
  ∃ tr, machine.Run (fresh workers connections) tr p ∧ tr.map Prod.fst = evs ∧
    Dealing workers connections tr p

section turns
variable {workers : List SocketWorker} {connections : List Connection} {p p' : Pool}
  {e : PoolEvent} {o : Option PoolEffect} {evs : List PoolEvent} {i k : Nat}

theorem Reached.snoc (h : Reached workers connections evs p) (hne : workers ≠ [])
    (hstep : machine.step p e = some (o, p')) (he : e.calm = true) (hseq : Sequential p e) :
    Reached workers connections (evs ++ [e]) p' := by
  obtain ⟨tr, hrun, rfl, hdealing⟩ := h
  exact ⟨_, hrun.snoc hstep, by simp, hdealing.step hne he hseq hstep⟩

theorem Reached.live (h : Reached workers connections evs p) : Live workers p := by
  obtain ⟨_, _, _, hdealing⟩ := h
  exact hdealing.toLive

/-- At rest the deque is whole. -/
theorem Live.sockets_length (h : Live workers p) (hidle : p.Idle) :
    p.sockets.length = workers.length := by
  have hwhole := h.whole
  rw [hidle.held, Multiset.coe_nil, add_zero] at hwhole
  exact (Multiset.coe_eq_coe.mp hwhole).length_eq

/-- The steps of a call of `send`, when it is the last one and the worker is alive. -/
theorem step_pops {past : List Send} {msg : String} {w : SocketWorker} {rest : List SocketWorker}
    (hcall : p.sends = past ++ [⟨msg, .start⟩]) (hfree : p.locked = false)
    (hfront : p.sockets = w :: rest) :
    machine.step p (.call past.length) =
      some (none, { p with sockets := rest, sends := past ++ [⟨msg, .holding w⟩] }) := by
  simp [machine, sendStep, hcall, hfree, hfront]

theorem step_enqueues {past : List Send} {msg : String} {w : SocketWorker}
    (hcall : p.sends = past ++ [⟨msg, .holding w⟩]) (halive : p.accepts w.tx = true) :
    machine.step p (.call past.length) = some (some (.enqueued past.length msg w),
      { p.deliver w.tx (.text msg) with sends := past ++ [⟨msg, .returning w⟩] }) := by
  simp [machine, sendStep, hcall, halive]

theorem step_pushes {past : List Send} {msg : String} {w : SocketWorker}
    (hcall : p.sends = past ++ [⟨msg, .returning w⟩]) (hfree : p.locked = false) :
    machine.step p (.call past.length) = some (none,
      { p with sockets := p.sockets ++ [w], sends := past ++ [⟨msg, .done⟩] }) := by
  simp [machine, sendStep, hcall, hfree]

/-- A call of `send` takes the front worker, sends on it and puts it back. -/
theorem Reached.send (h : Reached workers connections evs p) (hne : workers ≠ [])
    (hrest : p.AtRest) (msg : String) : ∃ p', Reached workers connections
      (evs ++ [.send msg, .call p.sends.length, .call p.sends.length, .call p.sends.length]) p' ∧
      p'.AtRest ∧ p'.sends = p.sends ++ [⟨msg, .done⟩] := by
  obtain ⟨hidle, hasleep, hstop⟩ := hrest
  have hlength := h.live.sockets_length hidle
  obtain ⟨w, rest, hfront⟩ : ∃ w rest, p.sockets = w :: rest := by
    refine List.exists_cons_of_ne_nil ?_
    intro hnil
    rw [hnil] at hlength
    exact hne (List.length_eq_zero_iff.mp hlength.symm)
  have halive : p.accepts w.tx = true :=
    h.live.alive w (h.live.mem_of_sockets (by rw [hfront]; exact List.mem_cons_self))
  have hfree : p.locked = false := by rw [locked, hasleep, hstop]; rfl
  -- called, front worker taken, message enqueued, worker back
  have hcalled := h.snoc hne (e := .send msg) rfl rfl hidle
  have hpopped := hcalled.snoc hne (step_pops rfl hfree hfront) rfl trivial
  have hsent := hpopped.snoc hne (step_enqueues rfl halive) rfl trivial
  have hback := hsent.snoc hne (step_pushes rfl hfree) rfl trivial
  simp only [List.append_assoc, List.cons_append, List.nil_append] at hback
  refine ⟨_, hback, ⟨?_, hasleep, hstop⟩, rfl⟩
  intro c hc
  rcases List.mem_append.mp hc with hpast | hlast
  · exact hidle c hpast
  · rw [List.mem_singleton.mp hlast]

/-- From the `i`-th worker on, the sentinel sends a ping to each and gets its pong. -/
theorem Reached.visits (h : Reached workers connections evs p) (hne : workers ≠ [])
    (hidle : p.Idle) (hstop : p.stop = .idle) (hvisiting : p.sentinel = .visiting i .pinging)
    (hleft : i + k = workers.length) : ∃ p', Reached workers connections
      (evs ++ List.replicate (2 * k + 1) (.sentinel true)) p' ∧ p'.AtRest ∧
      p'.sends = p.sends := by
  have hlength := h.live.sockets_length hidle
  induction k generalizing evs p i with
  | zero =>
      have hnone : p.sockets[i]? = none := List.getElem?_eq_none (by omega)
      have hsleeps : machine.step p (.sentinel true) =
          some (none, { p with sentinel := .asleep }) := by
        simp [machine, sentinelStep, hvisiting, hnone]
      exact ⟨_, h.snoc hne hsleeps rfl trivial, ⟨hidle, rfl, hstop⟩, rfl⟩
  | succ k ih =>
      obtain ⟨w, hw⟩ : ∃ w, p.sockets[i]? = some w :=
        ⟨_, List.getElem?_eq_getElem (by omega)⟩
      have halive := h.live.alive w (h.live.mem_of_sockets (List.mem_of_getElem? hw))
      have hping : machine.step p (.sentinel true) =
          some (none, { p.deliver w.tx .ping with sentinel := .visiting i .pinged }) := by
        simp [machine, sentinelStep, visit, hvisiting, hw, halive]
      have hpong : machine.step { p.deliver w.tx .ping with sentinel := .visiting i .pinged }
          (.sentinel true) = some (none,
            { p.deliver w.tx .ping with sentinel := .visiting (i + 1) .pinging }) := by
        simp [machine, sentinelStep, visit, deliver, hw]
      obtain ⟨p', hreached, hrest, hsends⟩ := ih
        ((h.snoc hne hping rfl trivial).snoc hne hpong rfl trivial) hidle hstop rfl (by omega)
        hlength
      refine ⟨p', ?_, hrest, hsends⟩
      rw [show 2 * (k + 1) + 1 = 1 + 1 + (2 * k + 1) by omega, List.replicate_add]
      simpa using hreached

/-- A pass of the sentinel in which every worker answers. -/
theorem Reached.pass (h : Reached workers connections evs p) (hne : workers ≠ [])
    (hrest : p.AtRest) : ∃ p', Reached workers connections
      (evs ++ List.replicate (2 * workers.length + 2) (.sentinel true)) p' ∧ p'.AtRest ∧
      p'.sends = p.sends := by
  obtain ⟨hidle, hasleep, hstop⟩ := hrest
  have hwakes : machine.step p (.sentinel true) =
      some (none, { p with sentinel := .visiting 0 .pinging }) := by
    simp [machine, sentinelStep, hasleep, hstop, Stop.holds]
  obtain ⟨p', hreached, hrest, hsends⟩ := (h.snoc hne hwakes rfl trivial).visits hne hidle hstop
    rfl (Nat.zero_add _)
  refine ⟨p', ?_, hrest, hsends⟩
  rw [show 2 * workers.length + 2 = 1 + (2 * workers.length + 1) by omega, List.replicate_add]
  simpa using hreached

/-- Some turns, one after another. -/
theorem Reached.turns (h : Reached workers connections evs p) (hne : workers ≠ [])
    (hrest : p.AtRest) (turns : List Turn) : ∃ p', Reached workers connections
      (evs ++ schedule workers.length p.sends.length turns) p' ∧ p'.AtRest ∧
      p'.sends.map (·.msg) = p.sends.map (·.msg) ++ sent turns := by
  induction turns generalizing evs p with
  | nil => exact ⟨p, by simpa [schedule] using h, hrest, (List.append_nil _).symm⟩
  | cons turn turns ih =>
      cases turn with
      | send msg =>
          obtain ⟨q, hq, hqrest, hqsends⟩ := h.send hne hrest msg
          obtain ⟨p', hreached, hrest', hsends⟩ := ih hq hqrest
          refine ⟨p', ?_, hrest', ?_⟩
          · rw [hqsends, List.length_append, List.append_assoc] at hreached
            exact hreached
          · rw [hsends, hqsends]
            simp [sent]
      | pass =>
          obtain ⟨q, hq, hqrest, hqsends⟩ := h.pass hne hrest
          obtain ⟨p', hreached, hrest', hsends⟩ := ih hq hqrest
          refine ⟨p', ?_, hrest', ?_⟩
          · rw [hqsends, List.append_assoc] at hreached
            exact hreached
          · rw [hsends, hqsends]
            rfl

theorem reached_fresh (halive : ∀ w ∈ workers, (fresh workers connections).accepts w.tx = true) :
    Reached workers connections [] (fresh workers connections) :=
  ⟨[], Mealy.Run.nil, rfl, dealing_fresh halive⟩

/-- **Round robin.**  While the workers are alive, messages sent one after another are dealt
out in turn: any number of sends and of passes of the sentinel can follow each other in any
order, and whatever run of sends and passes it is, wherever the passes fall, the `j`-th
message went to the `j`-th worker modulo their number. -/
theorem round_robin (workers : List SocketWorker) (connections : List Connection)
    (hne : workers ≠ [])
    (halive : ∀ w ∈ workers, (fresh workers connections).accepts w.tx = true) :
    (∀ turns : List Turn, ∃ tr p, machine.Run (fresh workers connections) tr p ∧
      tr.map Prod.fst = schedule workers.length 0 turns ∧ p.Idle ∧
      p.sends.map (·.msg) = sent turns ∧ Dealt workers connections tr p) ∧
    ∀ tr p, machine.Run (fresh workers connections) tr p → (∀ e ∈ tr, e.1.calm = true) →
      machine.Along Sequential (fresh workers connections) tr → p.Idle →
      Dealt workers connections tr p := by
  refine ⟨?_, ?_⟩
  · intro turns
    obtain ⟨p, ⟨tr, hrun, hevs, hdealing⟩, hrest, hsends⟩ :=
      (reached_fresh halive).turns hne ⟨by simp [Idle, fresh], rfl, rfl⟩ turns
    exact ⟨tr, p, hrun, hevs, hrest.idle, hsends, hdealing.dealt hne hrest.idle⟩
  · intro tr p hrun hcalm hseq hidle
    exact (dealing_of_run hrun hne hcalm hseq halive).dealt hne hidle

end turns

/-- Three messages on two workers, with a pass of the sentinel after the first: the first
and the last go to one worker. -/
theorem two_workers_take_turns : ∃ tr p,
    machine.Run (fresh [soleWorker, secondWorker] [liveConnection, liveConnection]) tr p ∧
    tr.map Prod.fst = schedule 2 0 [.send "a", .pass, .send "b", .send "c"] ∧
    p.sends.map (·.msg) = ["a", "b", "c"] ∧ p.textsAt 0 = ["a", "c"] ∧ p.textsAt 1 = ["b"] ∧
    p.sockets = [secondWorker, soleWorker] := by
  obtain ⟨tr, p, hrun, hevs, _, hsends, hdealt⟩ :=
    (round_robin [soleWorker, secondWorker] [liveConnection, liveConnection] (by simp)
      (by simp [fresh, accepts, soleWorker, secondWorker, liveConnection])).1
      [.send "a", .pass, .send "b", .send "c"]
  refine ⟨tr, p, hrun, hevs, hsends, ?_, ?_, ?_⟩
  · rw [hdealt.mail, hsends]
    rfl
  · rw [hdealt.mail, hsends]
    rfl
  · have hlength := congrArg List.length hsends
    rw [List.length_map] at hlength
    rw [hdealt.sockets, hlength]
    rfl

end Pool

end Ethereyum
