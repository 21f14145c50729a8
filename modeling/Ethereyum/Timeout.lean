/-
# `Timeout` — which pending entries a sweep may leave behind

The `with_timeout` thread finds overdue requests through the timestamp table:
it looks up the ids of the buckets at least ten seconds old.  So an entry of
`pending` can only time out while some bucket holds its id, and two places of
the source break that link.

* `batch_request` registers its elements in `pending` and in no bucket.
* The sweep collects the ids it timed out and then removes the buckets *keyed
  by those ids*.  An id that equals the clock second of a younger bucket takes
  that bucket with it.

In a history without non-empty batches, and without a
sweep that removes a younger bucket, every overdue entry is gone after every
sweep (`sweep_leaves_none_overdue`).

The buckets themselves are swept right only by coincidence (`swept_exactly_iff`):
the key of each old bucket has to be an id that timed out, and that of no younger one
may be.
-/
import Ethereyum.History

namespace Ethereyum

/-! ## Overdue entries -/

/-- No entry at least ten seconds old at `now` is left in `pending`. -/
def NoneOverdue (tr : List (Op × List Registration)) (now : Int) (c : Client) : Prop :=
  ∀ r ∈ registrations tr, now - r.second ≥ 10 → c.pending.lookup r.id ≠ some r.tx

/-- The steps that keep every pending entry in a bucket: no batch with elements,
and no sweep whose timed-out ids include the key of a bucket younger than ten
seconds. -/
def KeepsBuckets (c : Client) : Op → Prop
  | .batchRequest requests _ => requests = []
  | .sweep now order => ∀ id ∈ Client.expiredIds now order, c.pending.lookup id ≠ none →
      ∀ vs, c.ts.lookup (Client.asI64 id) = some vs → now - Client.asI64 id ≥ 10
  | _ => True

/-! ## The invariant -/

/-- Every entry that is still pending stands in the bucket of its second. -/
structure Bucketed (tr : List (Op × List Registration)) (c : Client) : Prop where
  fresh : ∀ r ∈ registrations tr, r.tx < c.oneshots.length
  bucket : ∀ r ∈ registrations tr, c.pending.lookup r.id = some r.tx →
    ∃ vs, c.ts.lookup r.second = some vs ∧ r.id ∈ vs

variable {C : Codec} {tr : List (Op × List Registration)} {c : Client}

/-- A step that makes no entry, adds nothing to `pending` and keeps the buckets
of what stays pending keeps the invariant. -/
theorem Bucketed.of_shrink {c' : Client} {op : Op} (h : Bucketed tr c)
    (hlen : c'.oneshots.length = c.oneshots.length)
    (hpending : ∀ id tx, c'.pending.lookup id = some tx → c.pending.lookup id = some tx)
    (hts : ∀ r ∈ registrations tr, c'.pending.lookup r.id = some r.tx →
      c'.ts.lookup r.second = c.ts.lookup r.second) :
    Bucketed (tr ++ [(op, [])]) c' := by
  have hreg : registrations (tr ++ [(op, [])]) = registrations tr := by
    rw [registrations_snoc, List.append_nil]
  constructor
  · intro r hr
    rw [hreg] at hr
    rw [hlen]
    exact h.fresh r hr
  · intro r hr hpend
    rw [hreg] at hr
    rw [hts r hr hpend]
    exact h.bucket r hr (hpending _ _ hpend)

theorem Bucketed.request {method : String} {params : List Value} {now : Int}
    (h : Bucketed tr c) :
    Bucketed (tr ++ [(.request method params now, [⟨c.ids, c.oneshots.length, now⟩])])
      (Client.request C c method params Except.ok ⟨now, true⟩).2 := by
  constructor
  · intro r hr
    rw [registrations_snoc, List.mem_append, List.mem_singleton] at hr
    rw [Client.request_oneshots_length]
    rcases hr with hr | rfl
    · exact Nat.lt_succ_of_lt (h.fresh r hr)
    · exact Nat.lt_succ_self _
  · intro r hr hpend
    rw [registrations_snoc, List.mem_append, List.mem_singleton] at hr
    rw [Client.request_pending, lookup_insert_iff] at hpend
    rw [Client.request_ts]
    rcases hr with hr | rfl
    · have hold : c.pending.lookup r.id = some r.tx := by
        split at hpend
        · -- the new sender is fresh, so it is not the one of an old entry
          exact absurd (Option.some.inj hpend) (Nat.ne_of_gt (h.fresh r hr))
        · exact hpend
      obtain ⟨vs, hvs, hmem⟩ := h.bucket r hr hold
      by_cases hk : r.second = now
      · subst hk
        exact ⟨vs ++ [c.ids], by simp [hvs], List.mem_append_left _ hmem⟩
      · exact ⟨vs, by simp [hk, hvs], hmem⟩
    · exact ⟨_, if_pos rfl, List.mem_append_right _ (List.mem_singleton.mpr rfl)⟩

/-- An entry a sweep at `now` leaves behind is younger than ten seconds. -/
theorem Bucketed.young_of_pending {now : Int} {order : List (Sigma fun _ : Int => List Nat)}
    (h : Bucketed tr c) (horder : order.Perm c.ts.entries) {r : Registration}
    (hr : r ∈ registrations tr) (hpend : (c.sweep now order).pending.lookup r.id = some r.tx) :
    c.pending.lookup r.id = some r.tx ∧ now - r.second < 10 := by
  rw [Client.sweep_pending] at hpend
  split at hpend
  · cases hpend
  · rename_i hkept
    obtain ⟨vs, hvs, hmem⟩ := h.bucket r hr hpend
    refine ⟨hpend, ?_⟩
    by_contra hold
    exact hkept ((Client.mem_expiredIds horder).mpr ⟨r.second, vs, hvs, by omega, hmem⟩)

theorem Bucketed.sweep {now : Int} {order : List (Sigma fun _ : Int => List Nat)}
    (h : Bucketed tr c) (horder : order.Perm c.ts.entries)
    (hkeep : KeepsBuckets c (.sweep now order)) :
    Bucketed (tr ++ [(.sweep now order, [])]) (c.sweep now order) := by
  refine h.of_shrink (by simp) ?_ ?_
  · intro id tx hpend
    rw [Client.sweep_pending] at hpend
    split at hpend
    · cases hpend
    · exact hpend
  · intro r hr hpend
    obtain ⟨hbefore, hyoung⟩ := h.young_of_pending horder hr hpend
    obtain ⟨vs, hvs, _⟩ := h.bucket r hr hbefore
    rw [Client.sweep_ts, if_neg]
    rintro ⟨id, hid, hfound, hk⟩
    have hold := hkeep id hid hfound vs (hk ▸ hvs)
    omega

/-- The invariant holds along every history whose steps keep the buckets. -/
theorem bucketed_of_run {s : Client} (hrun : (history C).Run Client.new tr s)
    (hkeeps : (history C).Along KeepsBuckets Client.new tr) : Bucketed tr s := by
  refine hrun.invariant_along hkeeps ⟨by simp [registrations], by simp [registrations]⟩ ?_
  intro tr t t' op o _ hop h hstep
  cases op with
  | request method params now =>
      simp only [history, Option.some.injEq, Prod.mk.injEq] at hstep
      obtain ⟨rfl, rfl⟩ := hstep
      exact h.request
  | batchRequest requests now =>
      have hnil : requests = [] := hop
      subst hnil
      simp only [history, Option.some.injEq, Prod.mk.injEq] at hstep
      obtain ⟨rfl, rfl⟩ := hstep
      exact h.of_shrink rfl (fun _ _ hp => hp) fun _ _ _ => rfl
  | frame rs =>
      simp only [history, Option.some.injEq, Prod.mk.injEq] at hstep
      obtain ⟨rfl, rfl⟩ := hstep
      exact h.of_shrink (by simp) (fun _ _ => Client.readFrame_pending _ _) fun _ _ _ => by simp
  | body rs =>
      simp only [history, Option.some.injEq, Prod.mk.injEq] at hstep
      obtain ⟨rfl, rfl⟩ := hstep
      exact h.of_shrink (by simp) (fun _ _ => Client.httpBody_pending _ _) fun _ _ _ => by simp
  | sweep now order =>
      simp only [history] at hstep
      split at hstep
      · rename_i horder
        simp only [Option.some.injEq, Prod.mk.injEq] at hstep
        obtain ⟨rfl, rfl⟩ := hstep
        exact h.sweep horder hop
      · cases hstep
  | channel =>
      simp only [history, Option.some.injEq, Prod.mk.injEq] at hstep
      obtain ⟨rfl, rfl⟩ := hstep
      exact h.of_shrink rfl (fun _ _ hp => hp) fun _ _ _ => rfl
  | addSubscription id tx =>
      simp only [history] at hstep
      split at hstep
      · simp only [Option.some.injEq, Prod.mk.injEq] at hstep
        obtain ⟨rfl, rfl⟩ := hstep
        exact h.of_shrink (by simp) (fun _ _ hp => by simpa using hp) fun _ _ _ => by simp
      · cases hstep

/-! ## After a sweep -/

/-- **In a history whose steps keep the buckets, no overdue entry survives a
sweep.** -/
theorem sweep_leaves_none_overdue {s s' : Client} {now : Int}
    {order : List (Sigma fun _ : Int => List Nat)} {o : List Registration}
    (hrun : (history C).Run Client.new tr s)
    (hkeeps : (history C).Along KeepsBuckets Client.new tr)
    (hsweep : (history C).step s (.sweep now order) = some (o, s')) :
    NoneOverdue tr now s' := by
  intro r hr hold hpend
  simp only [history] at hsweep
  split at hsweep
  · rename_i horder
    simp only [Option.some.injEq, Prod.mk.injEq] at hsweep
    obtain ⟨rfl, rfl⟩ := hsweep
    have hyoung := ((bucketed_of_run hrun hkeeps).young_of_pending horder hr hpend).2
    omega
  · cases hsweep

/-- A request of second 0 is gone after the sweep of second 10. -/
theorem overdue_request_swept :
    NoneOverdue [(.request "eth_blockNumber" [] 0, [⟨1, 0, 0⟩])] 10
      (Client.oneInFlight.sweep 10 Client.oneInFlight.ts.entries) :=
  @sweep_leaves_none_overdue Client.updateCodec _ Client.oneInFlight _ 10
    Client.oneInFlight.ts.entries [] (Mealy.Run.single rfl)
    (Mealy.along_of_forall fun e he t => by
      obtain rfl := List.mem_singleton.mp he
      trivial)
    rfl

/-- A batch element of second 0 is still pending after the sweep of second 10:
no bucket holds its id. -/
theorem batch_entry_never_swept : ¬ ∀ (C : Codec) (tr : List (Op × List Registration))
    (s s' : Client) (now : Int) (order : List (Sigma fun _ : Int => List Nat))
    (o : List Registration), (history C).Run Client.new tr s →
    (history C).step s (.sweep now order) = some (o, s') → NoneOverdue tr now s' := by
  intro h
  have hrun : (history Client.updateCodec).Run Client.new
      [(.batchRequest [⟨"eth_getCode", [], Except.ok⟩] 0, [⟨1, 0, 0⟩])] _ := Mealy.Run.single rfl
  have hleft := h Client.updateCodec _ _ _ 10 [] [] hrun rfl ⟨1, 0, 0⟩ List.mem_cons_self
    (by decide)
  exact hleft rfl

/-! ## The buckets after a sweep -/

/-- From `c` to `c'` exactly the buckets younger than ten seconds at `now` are left, as
they were. -/
def SweptExactly (now : Int) (c c' : Client) : Prop :=
  ∀ k, c'.ts.lookup k = if now - k < 10 then c.ts.lookup k else none

/-- At `now` the request `id` is pending and stands in a bucket at least ten seconds
old. -/
def TimesOut (now : Int) (c : Client) (id : Nat) : Prop :=
  c.pending.lookup id ≠ none ∧ ∃ k vs, c.ts.lookup k = some vs ∧ now - k ≥ 10 ∧ id ∈ vs

/-- The keys of the buckets at least ten seconds old, and of no younger ones, are the
ids of requests that time out. -/
def KeysTimeOut (now : Int) (c : Client) : Prop :=
  ∀ k vs, c.ts.lookup k = some vs →
    (now - k ≥ 10 ↔ ∃ id, TimesOut now c id ∧ k = Client.asI64 id)

/-- **A sweep leaves exactly the younger buckets, as they were, exactly when the keys of
the others are the ids of requests that time out.** -/
theorem swept_exactly_iff {now : Int} {order : List (Sigma fun _ : Int => List Nat)}
    (horder : order.Perm c.ts.entries) :
    SweptExactly now c (c.sweep now order) ↔ KeysTimeOut now c := by
  have hremoved : ∀ k, (∃ id ∈ Client.expiredIds now order,
      c.pending.lookup id ≠ none ∧ k = Client.asI64 id) ↔
      ∃ id, TimesOut now c id ∧ k = Client.asI64 id := by
    intro k
    refine exists_congr ?_
    intro id
    rw [Client.mem_expiredIds horder, TimesOut, ← and_assoc,
      and_comm (a := c.pending.lookup id ≠ none)]
  have hgone : ∀ k, (∃ id, TimesOut now c id ∧ k = Client.asI64 id) →
      (c.sweep now order).ts.lookup k = none := by
    intro k hid
    rw [Client.sweep_ts, if_pos ((hremoved k).mpr hid)]
  have hkept : ∀ k, (¬ ∃ id, TimesOut now c id ∧ k = Client.asI64 id) →
      (c.sweep now order).ts.lookup k = c.ts.lookup k := by
    intro k hnot
    rw [Client.sweep_ts, if_neg fun hid => hnot ((hremoved k).mp hid)]
  constructor
  · intro hswept k vs hvs
    have hk := hswept k
    constructor
    · intro hold
      by_contra hnot
      rw [hkept k hnot, hvs, if_neg (Int.not_lt.mpr hold)] at hk
      cases hk
    · intro hid
      by_contra hyoung
      rw [hgone k hid, hvs, if_pos (Int.not_le.mp hyoung)] at hk
      cases hk
  · intro hkeys k
    cases hvs : c.ts.lookup k with
    | none =>
        have hnone : (c.sweep now order).ts.lookup k = none := by
          by_cases hid : ∃ id, TimesOut now c id ∧ k = Client.asI64 id
          · exact hgone k hid
          · rw [hkept k hid, hvs]
        rw [hnone, ite_self]
    | some vs =>
        by_cases hyoung : now - k < 10
        · have hnot : ¬ ∃ id, TimesOut now c id ∧ k = Client.asI64 id := by
            intro hid
            exact absurd ((hkeys k vs hvs).mpr hid) (Int.not_le.mpr hyoung)
          rw [if_pos hyoung, hkept k hnot, hvs]
        · rw [if_neg hyoung, hgone k ((hkeys k vs hvs).mp (Int.not_lt.mp hyoung))]

/-- A client whose request 1 is of second 1. -/
def coincidence : Client :=
  (Client.request Client.updateCodec Client.new "eth_blockNumber" [] deUsize ⟨1, true⟩).2

/-- Its bucket is swept at second 11. -/
theorem coincidence_swept :
    SweptExactly 11 coincidence (coincidence.sweep 11 coincidence.ts.entries) := by
  refine (swept_exactly_iff (List.Perm.refl _)).mpr ?_
  intro k vs hvs
  have hlookup : coincidence.ts.lookup k = if k = 1 then some [1] else none := by
    simp [coincidence, Client.request_ts, Client.new]
  rw [hlookup, Option.ite_none_right_eq_some] at hvs
  obtain ⟨rfl, _⟩ := hvs
  refine iff_of_true (by decide)
    ⟨1, ⟨by decide, 1, [1], by decide, by decide, by decide⟩, by decide⟩

/-- Of two requests of the seconds 0 and 1 the first times out at second 10; its bucket
stays, and the bucket of the other goes. -/
theorem sweep_takes_wrong_bucket : ∃ tr c,
    (history Client.updateCodec).Run Client.new tr c ∧
    tr.map Prod.fst = [.request "eth_blockNumber" [] 0, .request "eth_blockNumber" [] 1] ∧
    c.ts.lookup 0 = some [1] ∧ c.ts.lookup 1 = some [2] ∧
    (c.sweep 10 c.ts.entries).ts.lookup 0 = some [1] ∧
    (c.sweep 10 c.ts.entries).ts.lookup 1 = none := by
  have hrun : (history Client.updateCodec).Run Client.new _ _ :=
    Mealy.run_of_exec (show (history Client.updateCodec).exec Client.new
      [.request "eth_blockNumber" [] 0, .request "eth_blockNumber" [] 1] = some (_, _) from rfl)
  exact ⟨_, _, hrun, rfl, by decide, by decide, by decide, by decide⟩

end Ethereyum
