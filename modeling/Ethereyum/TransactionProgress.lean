/-
# `TransactionProgress` — a transaction stream ends, as time passes

A block stream asks for what it missed until it has it, and need not end.  A transaction stream
asks once: a future that is still pending five seconds after it was pushed is let go.  So it ends
when the clock goes on, whatever the server does, also when it never answers
(`ends_as_time_passes`).

The measure is `2 * txList.length + queue.length`.  A hash that is requested makes it smaller, and
so does a future that leaves.  What is left is a poll that puts its future back, which turns the
queue; while nothing else happens the queue holds the same futures, and they grow old.

As long as no future is put back they leave in the order of the list (`leaves_in_order`).
-/
import Ethereyum.TransactionStream

namespace Ethereyum

namespace TransactionStream
variable {H256 Transaction : Type} {txns : List H256} {s s' : TransactionStream H256}
  {env : PollEnv H256 Transaction} {out : PollOut H256 Transaction}
  {tr : List (PollEnv H256 Transaction × PollOut H256 Transaction)}

/-! ## The end -/

/-- What is left to request, and to wait for. -/
def weight (s : TransactionStream H256) : Nat := 2 * s.txList.length + s.queue.length

theorem fate_kept {item : Nat × Ticket H256} (h : env.fate item = .kept) :
    env.now - item.1 < fiveSeconds := by
  unfold PollEnv.fate at h
  split at h
  · cases h
  · cases h
  · cases h
  · by_contra hage
    rw [if_neg hage] at h
    cases h

/-- A poll finds the stream ended, or makes it lighter, or puts the front of the queue back,
which is then younger than five seconds. -/
theorem poll_progress (h : s.Bounded) (hstep : s.poll env = some (out, s')) :
    out.result = .ok (.ready none) ∨ s'.weight < s.weight ∨
      ∃ item rest, s.queue = item :: rest ∧ s'.queue = rest ++ [item] ∧ s'.txList = s.txList ∧
        env.now - item.1 < fiveSeconds := by
  rcases poll_eq h env with ⟨_, _, hpoll⟩ | ⟨item, rest, hfilled, hpoll⟩
  · rw [hpoll] at hstep
    cases hstep
    exact Or.inl rfl
  · rw [hpoll] at hstep
    cases hstep
    refine Or.inr ?_
    have hlen : rest.length + 1 = s.queue.length + (s.txList.take s.wanted).length := by
      have hcount := congrArg List.length hfilled
      simpa [filled, PollEnv.push] using hcount.symm
    have hsplit : (s.txList.take s.wanted).length + (s.txList.drop s.wanted).length =
        s.txList.length := by
      rw [← List.length_append, List.take_append_drop]
    -- a future that leaves makes the stream lighter
    have hgone : (s.advance s.wanted rest).weight < s.weight := by
      simp only [weight, advance]
      omega
    cases hfate : env.fate item with
    | yielded b => exact Or.inl hgone
    | null => exact Or.inl hgone
    | failed e => exact Or.inl hgone
    | late => exact Or.inl hgone
    | kept =>
        rcases Nat.eq_zero_or_pos (s.txList.take s.wanted).length with hnone | hsome
        · -- the queue turns
          have htake : s.txList.take s.wanted = [] := List.length_eq_zero_iff.mp hnone
          have hdrop : s.txList.drop s.wanted = s.txList := by
            conv_rhs => rw [← List.take_append_drop s.wanted s.txList, htake, List.nil_append]
          refine Or.inr ⟨item, rest, ?_, rfl, hdrop, fate_kept hfate⟩
          rw [← hfilled, filled, htake]
          simp [PollEnv.push, ticketsFrom]
        · -- a request made it lighter
          refine Or.inl ?_
          simp only [weight, settle, advance, List.length_append, List.length_singleton]
          omega

/-- The stamps that a turn of the queue keeps. -/
def Turned (s t : TransactionStream H256) : Prop :=
  t.txList = s.txList ∧ t.queue.Perm s.queue

theorem Turned.weight_eq {t : TransactionStream H256} (h : Turned s t) : t.weight = s.weight := by
  rw [weight, weight, h.1, h.2.length_eq]

/-- Futures grow old. -/
theorem exists_old (queue : List (Nat × Ticket H256)) :
    ∃ T, ∀ item ∈ queue, ∀ now, T ≤ now → ¬ now - item.1 < fiveSeconds := by
  induction queue with
  | nil => exact ⟨0, fun item hitem => absurd hitem List.not_mem_nil⟩
  | cons item queue ih =>
      obtain ⟨T, hT⟩ := ih
      refine ⟨max T (item.1 + fiveSeconds), ?_⟩
      intro item' hitem' now hnow
      rcases List.mem_cons.mp hitem' with rfl | hrest
      · omega
      · exact hT item' hrest now (by omega)

/-- **As time passes the stream ends**, whatever the server does; and it can be polled forever. -/
theorem ends_as_time_passes (txns : List H256) :
    (∀ envs : Nat → PollEnv H256 Transaction,
      ∃ p : (machine H256 Transaction).Path (new txns), p.input = envs) ∧
    ∀ p : (machine H256 Transaction).Path (new txns),
      (∀ T, ∃ N, ∀ n, N ≤ n → T ≤ (p.input n).now) →
        ∃ n, (p.output n).result = .ok (.ready none) := by
  constructor
  · intro envs
    refine Mealy.exists_path
      (I := fun s => ∃ tr : List (PollEnv H256 Transaction × _), Ledger txns tr s)
      ⟨[], ledger_new txns⟩ envs ?_
    rintro n s ⟨tr, h⟩
    rcases poll_eq h.bounded (envs n) with ⟨_, _, hpoll⟩ | ⟨item, rest, _, hpoll⟩
    · exact ⟨_, _, hpoll, _, h.poll hpoll⟩
    · exact ⟨_, _, hpoll, _, h.poll hpoll⟩
  · intro p htime
    have hbounded : ∀ n, (p.state n).Bounded := fun n => (ledger_of_run (p.run n)).bounded
    refine p.eventually_later wellFounded_lt weight _ ?_
    intro n
    -- while nothing leaves, the queue turns
    let stirs : Nat → Prop := fun k =>
      (p.output k).result = .ok (.ready none) ∨ (p.state (k + 1)).weight < (p.state k).weight
    have hturns : ∀ k, n ≤ k → Turned (p.state n) (p.state k) →
        stirs k ∨ Turned (p.state n) (p.state (k + 1)) := by
      rintro k _ ⟨hlist, hqueue⟩
      rcases poll_progress (hbounded k) (p.step k) with
        hdone | hfall | ⟨item, rest, hfront, hback, hlist', _⟩
      · exact Or.inl (Or.inl hdone)
      · exact Or.inl (Or.inr hfall)
      · refine Or.inr ⟨hlist'.trans hlist, ?_⟩
        rw [hback]
        rw [hfront] at hqueue
        exact (List.perm_append_singleton item rest).trans hqueue
    obtain ⟨T, hT⟩ := exists_old (p.state n).queue
    obtain ⟨N, hN⟩ := htime T
    rcases p.until_or hturns ⟨rfl, List.Perm.refl _⟩ (Nat.le_max_left n N) with
      hstill | ⟨k, hk, hturned, hdone | hfall⟩
    · -- by now the futures are old
      have hlate := hN _ (Nat.le_max_right n N)
      rcases poll_progress (hbounded _) (p.step (max n N)) with
        hdone | hfall | ⟨item, rest, hfront, _, _, hyoung⟩
      · exact ⟨_, Nat.le_max_left n N, Or.inl hdone⟩
      · rw [hstill.weight_eq] at hfall
        exact ⟨_, Nat.le_succ_of_le (Nat.le_max_left n N), Or.inr hfall⟩
      · have hmem : item ∈ (p.state n).queue := by
          rw [← hstill.2.mem_iff, hfront]
          exact List.mem_cons_self
        exact absurd hyoung (hT item hmem _ hlate)
    · exact ⟨k, hk, Or.inl hdone⟩
    · rw [hturned.weight_eq] at hfall
      exact ⟨k + 1, Nat.le_succ_of_le hk, Or.inr hfall⟩

/-- The stream of one hash, when its future is queued, and when it is gone. -/
def silentQueued : TransactionStream Nat :=
  { new [3] with txList := [], queue := [(0, ⟨0, 3⟩)], asked := [3] }

def silentGone : TransactionStream Nat := { new [3] with txList := [], asked := [3] }

/-- Nobody answers, and the polls are a second apart. -/
def silentPath : (machine Nat Nat).Path (new [3]) where
  state
    | 0 => new [3]
    | n + 1 => if n < 5 then silentQueued else silentGone
  input n := silentNode (n * 10 ^ 9)
  output
    | 0 | 1 | 2 | 3 | 4 => .of (0, ⟨0, 3⟩) .kept
    | 5 => .of (0, ⟨0, 3⟩) .late
    | _ + 6 => .done
  start := rfl
  step
    | 0 | 1 | 2 | 3 | 4 | 5 => rfl
    | n + 6 => by
        have hlate : ∀ m, ¬ n + m + 5 < 5 := fun m => by omega
        simp only [hlate 0, hlate 1, if_false]
        rfl

theorem silence_ends : ∃ n, (silentPath.output n).result = .ok (.ready none) := by
  refine (ends_as_time_passes [3]).2 silentPath fun T => ⟨T, fun n hn => ?_⟩
  exact hn.trans (Nat.le_mul_of_pos_right n (by decide))

/-! ## The order -/

/-- The futures that left, and those of the queue, stand in the order of the list. -/
structure InOrder (tr : List (PollEnv H256 Transaction × PollOut H256 Transaction))
    (s : TransactionStream H256) : Prop where
  placed : (exits tr).map (·.1) ++ s.queue.map (·.2) = ticketsFrom 0 s.asked

theorem InOrder.poll (h : InOrder tr s) (hbounded : s.Bounded)
    (hstep : s.poll env = some (out, s')) (hleaves : ∀ f, out.polled ≠ some (f, .kept)) :
    InOrder (tr ++ [(env, out)]) s' := by
  rcases poll_eq hbounded env with ⟨_, _, hpoll⟩ | ⟨item, rest, hfilled, hpoll⟩
  · rw [hpoll] at hstep
    cases hstep
    refine ⟨?_⟩
    rw [exits_append]
    simpa [exits, PollOut.done] using h.placed
  · rw [hpoll] at hstep
    cases hstep
    have htickets : (exits tr).map (·.1) ++ (item :: rest).map (·.2) =
        ticketsFrom 0 (s.asked ++ s.txList.take s.wanted) := by
      have hpushed : (s.filled env s.wanted).map (·.2) =
          s.queue.map (·.2) ++ ticketsFrom s.asked.length (s.txList.take s.wanted) :=
        push_tickets _ _ _
      rw [← hfilled, hpushed, ← List.append_assoc, h.placed, ticketsFrom_append, Nat.zero_add]
    -- the front leaves, in whatever way
    have hgone : exits [(env, PollOut.of item (env.fate item))] = [(item.2, env.fate item)] ∧
        (s.advance s.wanted rest).settle item (env.fate item) = s.advance s.wanted rest := by
      cases hfate : env.fate item with
      | yielded b => exact ⟨rfl, rfl⟩
      | null => exact ⟨rfl, rfl⟩
      | failed e => exact ⟨rfl, rfl⟩
      | late => exact ⟨rfl, rfl⟩
      | kept => exact absurd (by rw [hfate]; rfl) (hleaves item.2)
    refine ⟨?_⟩
    rw [exits_append, hgone.1, hgone.2, List.map_append, List.append_assoc]
    exact htickets

/-- **As long as no future is put back, they leave in the order of the list**, and so does what is
yielded. -/
theorem leaves_in_order (hrun : (machine H256 Transaction).Run (new txns) tr s)
    (hleaves : ∀ e ∈ tr, ∀ f, e.2.polled ≠ some (f, .kept)) :
    (exits tr).map (·.1) <+: ticketsFrom 0 txns := by
  have horder : InOrder tr s := by
    refine hrun.invariant_along (C := fun s env => ∀ out s', s.poll env = some (out, s') →
      ∀ f, out.polled ≠ some (f, .kept)) ?_ (I := fun tr s => InOrder tr s) ⟨rfl⟩ ?_
    · rintro pre post env out t rfl hpre out' t' hstep
      obtain ⟨t₁, hpre', hpost⟩ := hrun.split
      obtain ⟨t₂, hstep', _⟩ := Mealy.run_cons.mp hpost
      obtain ⟨_, rfl⟩ := hpre.det hpre' rfl
      obtain ⟨rfl, _⟩ := Prod.mk.inj (Option.some.inj (hstep.symm.trans hstep'))
      exact hleaves _ (List.mem_append_right _ List.mem_cons_self)
    · intro tr t t' env out hpre hC h hstep
      exact h.poll (ledger_of_run hpre).bounded hstep (hC out t' hstep)
  have hasked : ticketsFrom 0 s.asked <+: ticketsFrom 0 txns := by
    rw [← (ledger_of_run hrun).requested, ticketsFrom_append]
    exact List.prefix_append _ _
  exact List.IsPrefix.trans ⟨_, horder.placed⟩ hasked

/-- Two hashes that the node has. -/
theorem prompt_in_order : ∃ tr s, (machine Nat Nat).exec (new [3, 5])
    [promptNode, promptNode] = some (tr, s) ∧ yields tr = [3, 5] ∧
    (exits tr).map (·.1) <+: [⟨0, 3⟩, ⟨1, 5⟩] := by
  refine ⟨_, _, rfl, rfl, ?_⟩
  have hrun : (machine Nat Nat).Run (new [3, 5]) _ _ :=
    Mealy.run_of_exec (show (machine Nat Nat).exec (new [3, 5]) [promptNode, promptNode] =
      some (_, _) from rfl)
  refine leaves_in_order hrun ?_
  intro e he f hkept
  rcases List.mem_cons.mp he with rfl | he
  · cases hkept
  · obtain rfl := List.mem_singleton.mp he
    cases hkept

end TransactionStream

end Ethereyum
