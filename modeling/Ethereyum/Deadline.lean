/-
# `Deadline` — which calls the clock ends

The thread of `with_timeout` knows the calls by their ids, and finds the overdue ids in the
buckets of the table `ts`, one bucket a second:

| | in a bucket | waits until |
| :-- | :-- | :-- |
| `request` | that of its second | a response, or a sweep ten seconds later |
| `batch_request` | none | a response |

The left column is kept by every operation, with one exception: a sweep removes the buckets that
have the ids it found for their second.  While the counter of ids is behind the clock there are no
such buckets, and the right column is exact (`request_waits_iff`, `batch_waits_iff`): so a request
waits no longer than ten seconds and a turn of that thread, and a batch may wait forever.
-/
import Ethereyum.Exchange

namespace Ethereyum

/-! ## Buckets -/

/-- The id is in the bucket of the second `k`. -/
def Client.Filed (c : Client) (id : Nat) (k : Int) : Prop :=
  ∃ vs, c.ts.lookup k = some vs ∧ id ∈ vs

/-- A sweep at least ten seconds after `second`. -/
def Op.Overdue (second : Int) : Op → Prop
  | .sweep now _ => now - second ≥ 10
  | _ => False

/-- The operation ends the call under the id `id`, which was made in `second`, if it is known. -/
def Op.Decides (id : Nat) (second : Option Int) (op : Op) : Prop :=
  op.Answers id ∨ ∃ k ∈ second, op.Overdue k

/-- The counter of ids has made no full turn, and is behind the clock. -/
structure Early (second : Option Int) (c : Client) : Prop where
  turn : c.oneshots.length ≤ word
  clock : ∀ k ∈ second, (c.oneshots.length : Int) < k

theorem Early.mono {second : Option Int} {c c' : Client} (h : Early second c')
    (hlen : c.oneshots.length ≤ c'.oneshots.length) : Early second c where
  turn := Nat.le_trans hlen h.turn
  clock k hk := Int.lt_of_le_of_lt (Int.ofNat_le.mpr hlen) (h.clock k hk)

section buckets
variable {C : Codec} {c c' : Client} {op : Op} {o : List Registration} {id : Nat} {k : Int}
  {tx : Oneshot} {second : Option Int}

/-- A request files its id in the bucket of its second. -/
theorem Client.filed_request {α : Type} {method : String} {params : List Value}
    {de : Value → Except Error α} {env : Env} :
    (c.request C method params de env).2.Filed id k ↔
      c.Filed id k ∨ id = c.ids ∧ k = env.now := by
  simp only [Filed, request_ts]
  by_cases hk : k = env.now
  · subst hk
    cases c.ts.lookup env.now with
    | none => simp
    | some vs => simp
  · simp [hk]

theorem Client.Filed.of_sweep {now : Int} {order : List (Sigma fun _ : Int => List Nat)}
    (h : (c.sweep now order).Filed id k) : c.Filed id k := by
  obtain ⟨vs, hvs, hmem⟩ := h
  rw [sweep_ts] at hvs
  split at hvs
  · cases hvs
  · exact ⟨vs, hvs, hmem⟩

/-- An operation sweeps, or it files the id of its request and leaves what was filed. -/
theorem filed_step (hstep : (history C).step c op = some (o, c')) :
    (∃ now order, op = .sweep now order ∧ order.Perm c.ts.entries ∧ c' = c.sweep now order) ∨
    ∀ id k, c'.Filed id k ↔
      c.Filed id k ∨ id = c.ids ∧ ∃ method params, op = .request method params k := by
  -- the operations that have nothing to do with the buckets
  have hquiet : c'.ts = c.ts → (∀ method params k, op ≠ .request method params k) →
      ∀ id k, c'.Filed id k ↔
        c.Filed id k ∨ id = c.ids ∧ ∃ method params, op = .request method params k := by
    intro hts hop id k
    rw [Client.Filed, Client.Filed, hts, or_iff_left]
    rintro ⟨_, method, params, hrequest⟩
    exact hop method params k hrequest
  cases op with
  | request method params now =>
      cases hstep
      refine Or.inr fun id k => Client.filed_request.trans (or_congr_right (and_congr_right ?_))
      intro _
      constructor
      · rintro rfl
        exact ⟨method, params, rfl⟩
      · rintro ⟨_, _, hrequest⟩
        cases hrequest
        rfl
  | batchRequest requests now =>
      cases hstep
      refine Or.inr (hquiet ?_ (by simp))
      rw [Client.batchRequest_client]
      exact Client.iterate_register_keeps Client.ts Client.register_ts _ _
  | frame rs =>
      cases hstep
      exact Or.inr (hquiet (Client.readFrame_ts c rs) (by simp))
  | body rs =>
      cases hstep
      exact Or.inr (hquiet (Client.httpBody_ts c rs) (by simp))
  | sweep now order =>
      simp only [history] at hstep
      split at hstep
      · next horder =>
          cases hstep
          exact Or.inl ⟨now, order, rfl, horder, rfl⟩
      · cases hstep
  | channel =>
      cases hstep
      exact Or.inr (hquiet rfl (by simp))
  | addSubscription id tx =>
      simp only [history] at hstep
      split at hstep
      · cases hstep
        exact Or.inr (hquiet (Client.addSubscription_ts c id tx) (by simp))
      · cases hstep

/-- Only ids that were given out are in buckets. -/
theorem given_of_run {tr : List (Op × List Registration)}
    (hrun : (history C).Run Client.new tr c) (hfiled : c.Filed id k) :
    ∃ tx, tx < c.oneshots.length ∧ id = idOf tx := by
  refine hrun.invariant (I := fun _ c => ∀ id k, c.Filed id k →
    ∃ tx, tx < c.oneshots.length ∧ id = idOf tx) ?_ ?_ id k hfiled
  · rintro id k ⟨vs, hvs, _⟩
    simp [Client.new] at hvs
  · intro tr t t' op o hrun ih hstep id k hfiled
    have hmono := history_oneshots_mono hstep
    rcases filed_step hstep with ⟨now, order, rfl, _, rfl⟩ | hfiles
    · obtain ⟨tx, hlt, hid⟩ := ih id k hfiled.of_sweep
      exact ⟨tx, Nat.lt_of_lt_of_le hlt hmono, hid⟩
    · rcases (hfiles id k).mp hfiled with hold | ⟨rfl, method, params, rfl⟩
      · obtain ⟨tx, hlt, hid⟩ := ih id k hold
        exact ⟨tx, Nat.lt_of_lt_of_le hlt hmono, hid⟩
      · refine ⟨t.oneshots.length, ?_, (Client.wellformed_of_run hrun).ids⟩
        cases hstep
        rw [Client.request_oneshots_length]
        exact Nat.lt_succ_self _

/-- As a number an id that was given out is at most the number of the calls. -/
theorem asI64_idOf_le {n : Nat} (hlt : tx < n) : Client.asI64 (idOf tx) ≤ n := by
  have hle : idOf tx ≤ n := Nat.le_trans (Nat.mod_le _ _) hlt
  unfold Client.asI64
  split <;> omega

/-- What a call that is early has in the buckets it keeps. -/
theorem filed_iff_step (hwell : c.Wellformed) (hlt : tx < c.oneshots.length)
    (hearly : Early second c') (hfiled : ∀ k, c.Filed (idOf tx) k ↔ second = some k)
    (hstep : (history C).step c op = some (o, c')) :
    ∀ k, c'.Filed (idOf tx) k ↔ second = some k := by
  have hmono := history_oneshots_mono hstep
  intro k
  rcases filed_step hstep with ⟨now, order, rfl, horder, rfl⟩ | hfiles
  · refine ⟨fun h => (hfiled k).mp h.of_sweep, ?_⟩
    intro hk
    obtain ⟨vs, hvs, hmem⟩ := (hfiled k).mpr hk
    refine ⟨vs, ?_, hmem⟩
    rw [Client.sweep_ts, if_neg, hvs]
    -- the ids that time out are behind the clock
    rintro ⟨id, _, hpending, rfl⟩
    obtain ⟨tx', htx'⟩ := Option.ne_none_iff_exists'.mp hpending
    obtain ⟨rfl, hlt', _⟩ := hwell.pending id tx' htx'
    have hclock := hearly.clock _ hk
    rw [Client.sweep_oneshots_length] at hclock
    exact absurd (asI64_idOf_le hlt') (Int.not_le.mpr hclock)
  · rw [hfiles (idOf tx) k, hfiled k, or_iff_left]
    rintro ⟨hid, method, params, rfl⟩
    cases hstep
    have hturn := hearly.turn
    rw [Client.request_oneshots_length] at hturn
    exact idOf_ne hlt (Nat.lt_add_left tx hturn) (hwell.ids.symm.trans hid.symm)

end buckets

/-! ## What ends a call -/

/-- A call whose oneshot is `tx`, some operations after it was made. -/
structure Timed (tx : Oneshot) (second : Option Int) (ops : List Op) (c : Client) : Prop where
  wellformed : c.Wellformed
  listed : Listed c.pending c.oneshots
  made : tx < c.oneshots.length
  filed : Early second c → ∀ k, c.Filed (idOf tx) k ↔ second = some k
  waits : Early second c →
    (c.oneshots.get tx = .empty ↔ ∀ op ∈ ops, ¬ op.Decides (idOf tx) second)

section timed
variable {C : Codec} {c c' : Client} {op : Op} {o : List Registration} {tx : Oneshot}
  {second : Option Int} {ops : List Op}

/-- An operation that does not end the call leaves its oneshot open. -/
theorem empty_step (hwell : c.Wellformed) (hlt : tx < c.oneshots.length)
    (hturn : c'.oneshots.length ≤ word)
    (hfiled : ∀ k, c.Filed (idOf tx) k ↔ second = some k)
    (hnot : ¬ op.Decides (idOf tx) second) (hempty : c.oneshots.get tx = .empty)
    (hstep : (history C).step c op = some (o, c')) : c'.oneshots.get tx = .empty := by
  have hcompletes : op.Completes fun id _ => id ≠ idOf tx := by
    cases op with
    | frame rs =>
        intro r hr hsub hid
        exact hnot (Or.inl ⟨r, hr, RpcResponse.requestId_eq_some.mpr ⟨hsub, hid⟩⟩)
    | body rs =>
        intro r hr hid
        exact hnot (Or.inl ⟨r, hr, hid⟩)
    | sweep now order =>
        rintro id hid rfl
        simp only [history] at hstep
        split at hstep
        · next horder =>
            obtain ⟨k, vs, hvs, hold, hmem⟩ := (Client.mem_expiredIds horder).mp hid
            exact hnot (Or.inr ⟨k, (hfiled k).mp ⟨vs, hvs, hmem⟩, hold⟩)
        · cases hstep
    | _ => trivial
  refine (history_keeps (P := fun _ o => tx < o.length ∧ (o.length ≤ word → o.get tx = .empty))
    hcompletes ?_ ?_ hwell ⟨hlt, fun _ => hempty⟩ hstep).2 hturn
  · rintro t id rv hid hwell ⟨hlt, h⟩
    rw [Client.complete_oneshots_length, Client.complete_oneshots]
    · exact ⟨hlt, h⟩
    · intro hfound
      exact hid (hwell.pending id tx hfound).1
  · rintro t hwell ⟨hlt, h⟩
    rw [Client.register_oneshots_length]
    refine ⟨Nat.lt_succ_of_lt hlt, ?_⟩
    intro hlen
    rw [Client.register_oneshots]
    · exact h (Nat.le_of_succ_le hlen)
    · intro hfound
      exact idOf_ne hlt (by omega) (hwell.ids.symm.trans (hwell.pending _ tx hfound).1)

/-- An operation that ends the call takes its sender out. -/
theorem decided_step (hfiled : ∀ k, c.Filed (idOf tx) k ↔ second = some k)
    (hdecides : op.Decides (idOf tx) second) (hstep : (history C).step c op = some (o, c')) :
    c'.pending.lookup (idOf tx) = none := by
  rcases hdecides with hanswers | ⟨k, hk, hold⟩
  · exact hanswers.pending hstep
  · cases op with
    | sweep now order =>
        simp only [history] at hstep
        split at hstep
        · next horder =>
            cases hstep
            obtain ⟨vs, hvs, hmem⟩ := (hfiled k).mpr hk
            rw [Client.sweep_pending, if_pos]
            exact (Client.mem_expiredIds horder).mpr ⟨k, vs, hvs, hold, hmem⟩
        · cases hstep
    | _ => exact False.elim hold

theorem Timed.step (h : Timed tx second ops c) (hstep : (history C).step c op = some (o, c')) :
    Timed tx second (ops ++ [op]) c' := by
  have hmono := history_oneshots_mono hstep
  have hlisted := h.listed.step h.wellformed hstep
  have hmade := Nat.lt_of_lt_of_le h.made hmono
  refine ⟨h.wellformed.step hstep, hlisted, hmade, ?_, ?_⟩
  · intro hearly
    exact filed_iff_step h.wellformed h.made hearly (h.filed (hearly.mono hmono)) hstep
  · intro hearly
    have hfiled := h.filed (hearly.mono hmono)
    have hwaits := h.waits (hearly.mono hmono)
    constructor
    · intro hempty op' hop'
      rcases List.mem_append.mp hop' with hold | hnew
      · refine hwaits.mp ?_ op' hold
        by_contra hwritten
        exact hwritten ((written_step h.wellformed hstep hwritten).symm.trans hempty)
      · obtain rfl := List.mem_singleton.mp hnew
        intro hdecides
        have hfound := hlisted tx hmade hempty
        exact absurd (hfound.symm.trans (decided_step hfiled hdecides hstep)) (by simp)
    · intro hnot
      refine empty_step h.wellformed h.made hearly.turn hfiled ?_ ?_ hstep
      · exact hnot op (List.mem_append_right _ (List.mem_singleton_self op))
      · exact hwaits.mpr fun op' hop' => hnot op' (List.mem_append_left _ hop')

theorem Timed.run {c₁ : Client} {tr : List (Op × List Registration)}
    (h : Timed tx second [] c₁) (hrun : (history C).Run c₁ tr c) :
    Timed tx second (tr.map Prod.fst) c := by
  refine hrun.invariant (I := fun tr c => Timed tx second (tr.map Prod.fst) c) h ?_
  intro tr t t' op o _ ih hstep
  rw [List.map_append]
  exact ih.step hstep

end timed

/-! ## Requests and batches -/

section calls
variable {α : Type} {C : Codec} {c₀ c : Client} {past tr : List (Op × List Registration)}
  {o : Oneshots} {tx : Oneshot} {de : Value → Except Error α} {keep : YumFuture α}

/-- Registrations open oneshots, one after the other. -/
theorem Client.Wellformed.opens (h : c.Wellformed) (n : Nat) (hturn : c.oneshots.length + n ≤ word)
    {i : Nat} (hi : i < n) :
    (Client.register^[n] c).oneshots.get (c.oneshots.length + i) = .empty := by
  induction n with
  | zero => exact absurd hi (Nat.not_lt_zero i)
  | succ n ih =>
      have hwell := h.iterate_register n
      have hlen := Client.iterate_register_oneshots_length n c
      rw [Function.iterate_succ_apply', Client.register_oneshots]
      · rcases Nat.lt_succ_iff_lt_or_eq.mp hi with hlt | rfl
        · exact ih (Nat.le_of_succ_le hturn) hlt
        · simp [Oneshots.get, hlen]
      · intro hfound
        obtain ⟨hid, hlt, _⟩ := hwell.pending _ _ hfound
        rw [hlen] at hlt
        have hids := hwell.ids
        rw [hlen] at hids
        exact idOf_ne hlt (Nat.lt_add_left _ hturn) (hids.symm.trans hid)

theorem Listed.iterate_register (h : Listed c.pending c.oneshots) (hwell : c.Wellformed) (n : Nat) :
    Listed (Client.register^[n] c).pending (Client.register^[n] c).oneshots := by
  induction n with
  | zero => exact h
  | succ n ih =>
      rw [Function.iterate_succ_apply']
      exact ih.register (hwell.iterate_register n)

/-- A call that was just made: it has its own place, and its id in no bucket but its own. -/
theorem Timed.start {c₁ : Client} {ts : HashMap Int (List Nat)} {wire : List Request} {n i : Nat}
    {second : Option Int} (hpast : (history C).Run Client.new past c₀)
    (hmade : c₁ = { Client.register^[n] c₀ with ts, wire }) (hi : i < n)
    (hfiled : ∀ k, c₁.Filed (idOf (c₀.oneshots.length + i)) k ↔
      c₀.Filed (idOf (c₀.oneshots.length + i)) k ∨ second = some k) :
    Timed (c₀.oneshots.length + i) second [] c₁ := by
  subst hmade
  have hwell := Client.wellformed_of_run hpast
  have hlen := Client.iterate_register_oneshots_length n c₀
  have hlt : c₀.oneshots.length + i < (Client.register^[n] c₀).oneshots.length := by
    rw [hlen]
    exact Nat.add_lt_add_left hi _
  refine ⟨(hwell.iterate_register n).congr rfl rfl rfl rfl rfl,
    (listed_of_run hpast).iterate_register hwell n, hlt, ?_, ?_⟩
  · intro hearly k
    rw [hfiled k, or_iff_right]
    intro hold
    obtain ⟨tx, htx, hid⟩ := given_of_run hpast hold
    have hturn := Nat.lt_of_lt_of_le hlt hearly.turn
    exact idOf_ne (Nat.lt_add_right i htx) (Nat.lt_add_left tx hturn) hid
  · intro hearly
    refine iff_of_true (hwell.opens n ?_ hi) (by simp)
    rw [← hlen]
    exact hearly.turn

theorem YumFuture.pollWaiting_notReady_iff :
    (pollWaiting o tx de keep).1 = .ok .notReady ↔ o.get tx = .empty := by
  unfold pollWaiting Oneshots.poll
  cases o.get tx with
  | empty => simp
  | dropped => simp
  | sent rv => cases h : rv.bind de <;> simp [h]

/-- **A request waits exactly as long as no response came under its id, and no sweep ten seconds
later.**  Whatever else the client does, and did before: while the counter makes no full turn, and
is behind the clock. -/
theorem request_waits_iff {method : String} {params : List Value} {now : Int}
    (hpast : (history C).Run Client.new past c₀)
    (hrun : (history C).Run (c₀.request C method params de ⟨now, true⟩).2 tr c)
    (hturn : c.oneshots.length ≤ word) (hclock : (c.oneshots.length : Int) < now) :
    ((c₀.request C method params de ⟨now, true⟩).1.poll c.oneshots).1 = .ok .notReady ↔
      ∀ op ∈ tr.map Prod.fst, ¬ op.Answers c₀.ids ∧ ¬ op.Overdue now := by
  have hids := (Client.wellformed_of_run hpast).ids
  have hstart : Timed c₀.oneshots.length (some now) []
      (c₀.request C method params de ⟨now, true⟩).2 := by
    refine Timed.start (n := 1) hpast (Client.request_client C c₀ method params de ⟨now, true⟩)
      Nat.zero_lt_one ?_
    intro k
    rw [Client.filed_request, Nat.add_zero, ← hids, and_iff_right rfl, Option.some.injEq,
      eq_comm (a := k)]
  have hearly : Early (some now) c := by
    refine ⟨hturn, ?_⟩
    rintro k ⟨⟩
    exact hclock
  have hwaits := (hstart.run hrun).waits hearly
  rw [← hids] at hwaits
  refine YumFuture.pollWaiting_notReady_iff.trans (hwaits.trans ?_)
  simp [Op.Decides, not_or]

end calls

/-- A client that asked for the block number in second 0, and for the gas price in second 100. -/
def Client.askedTwice : Client :=
  (Client.asked.request updateCodec "eth_gasPrice" [] deString ⟨100, true⟩).2

/-- The buckets of the two calls. -/
def twoBuckets : List (Sigma fun _ : Int => List Nat) := [⟨0, [1]⟩, ⟨100, [2]⟩]

/-- The sweep of second 105 ends the call for the block number; the call for the gas price waits
for that of second 110. -/
theorem gasPrice_times_out : ∃ tr c tr' c',
    (history Client.updateCodec).Run Client.askedTwice tr c ∧
    tr.map Prod.fst = [.sweep 105 twoBuckets] ∧
    ((Client.asked.request Client.updateCodec "eth_gasPrice" [] deString ⟨100, true⟩).1.poll
      c.oneshots).1 = .ok .notReady ∧
    (history Client.updateCodec).Run Client.askedTwice tr' c' ∧
    tr'.map Prod.fst = [.sweep 105 twoBuckets, .sweep 110 twoBuckets] ∧
    ((Client.asked.request Client.updateCodec "eth_gasPrice" [] deString ⟨100, true⟩).1.poll
      c'.oneshots).1 ≠ .ok .notReady := by
  have hpast : (history Client.updateCodec).Run Client.new
      [(.request "eth_blockNumber" [] 0, [⟨1, 0, 0⟩])] Client.asked := Mealy.Run.single rfl
  have hrun : (history Client.updateCodec).Run Client.askedTwice _ _ :=
    Mealy.run_of_exec (show (history Client.updateCodec).exec _ [.sweep 105 twoBuckets] =
      some (_, _) from rfl)
  have hrun' : (history Client.updateCodec).Run Client.askedTwice _ _ :=
    Mealy.run_of_exec (show (history Client.updateCodec).exec _
      [.sweep 105 twoBuckets, .sweep 110 twoBuckets] = some (_, _) from rfl)
  refine ⟨_, _, _, _, hrun, rfl, ?_, hrun', rfl, ?_⟩
  · refine (request_waits_iff hpast hrun (by decide) (by decide)).mpr ?_
    intro op hop
    obtain rfl := List.mem_singleton.mp hop
    exact ⟨id, by simp [Op.Overdue]⟩
  · intro hwaits
    have hnot := (request_waits_iff hpast hrun' (by decide) (by decide)).mp hwaits
      (.sweep 110 twoBuckets) (by simp)
    exact hnot.2 (show (110 : Int) - 100 ≥ 10 by decide)

section calls
variable {α : Type} {C : Codec} {c₀ c : Client} {past tr : List (Op × List Registration)}

/-- **An element of a batch waits exactly as long as no response came under its id.**  No sweep
ends it, however late. -/
theorem batch_waits_iff {requests : List (BatchItem α)} {futs : List (YumFuture α)} {i : Nat}
    {f : YumFuture α} (hpast : (history C).Run Client.new past c₀)
    (hrun : (history C).Run (c₀.batchRequest requests true).2 tr c)
    (hturn : c.oneshots.length ≤ word) (hfuts : (c₀.batchRequest requests true).1 = .waiting futs)
    (hf : futs[i]? = some f) :
    (f.poll c.oneshots).1 = .ok .notReady ↔
      ∀ op ∈ tr.map Prod.fst, ¬ op.Answers (c₀.batchId i) := by
  have hwell := Client.wellformed_of_run hpast
  -- the future of the position
  have hresponses := Client.registerBatch_responses requests c₀
  simp only [Client.batchRequest, if_pos, hresponses] at hfuts
  obtain rfl := YumBatchFuture.waiting.inj hfuts
  rw [List.getElem?_map, List.getElem?_mapIdx, Option.map_map] at hf
  obtain ⟨item, hitem, rfl⟩ := Option.map_eq_some_iff.mp hf
  have hi : i < requests.length := (List.getElem?_eq_some_iff.mp hitem).1
  have hstart : Timed (c₀.oneshots.length + i) none [] (c₀.batchRequest requests true).2 := by
    refine Timed.start hpast (Client.batchRequest_client c₀ requests true) hi ?_
    intro k
    have hts : (c₀.batchRequest requests true).2.ts = c₀.ts := by
      rw [Client.batchRequest_client]
      exact Client.iterate_register_keeps Client.ts Client.register_ts _ _
    rw [Client.Filed, Client.Filed, hts, or_iff_left]
    rintro ⟨⟩
  have hearly : Early none c := ⟨hturn, by simp⟩
  have hwaits := (hstart.run hrun).waits hearly
  rw [← hwell.batchId_eq] at hwaits
  refine YumFuture.pollWaiting_notReady_iff.trans (hwaits.trans ?_)
  simp [Op.Decides]

end calls

/-- Of two calls in a batch the second is answered; the first waits, as late as it may be. -/
theorem twoCodes_wait : ∃ futs f g tr c,
    (Client.new.batchRequest twoCodes true).1 = .waiting futs ∧ futs[0]? = some f ∧
    futs[1]? = some g ∧
    (history Client.updateCodec).Run (Client.new.batchRequest twoCodes true).2 tr c ∧
    tr.map Prod.fst = [.request "eth_gasPrice" [] 0, .sweep 1000 [⟨0, [3]⟩],
      .frame [.success 2 (.string "0x6002")]] ∧
    (f.poll c.oneshots).1 = .ok .notReady ∧ (g.poll c.oneshots).1 ≠ .ok .notReady := by
  have hrun : (history Client.updateCodec).Run (Client.new.batchRequest twoCodes true).2 _ _ :=
    Mealy.run_of_exec (show (history Client.updateCodec).exec _
      [.request "eth_gasPrice" [] 0, .sweep 1000 [⟨0, [3]⟩],
        .frame [.success 2 (.string "0x6002")]] = some (_, _) from rfl)
  refine ⟨_, _, _, _, _, rfl, rfl, rfl, hrun, rfl, ?_, ?_⟩
  · refine (batch_waits_iff (i := 0) Mealy.Run.nil hrun (by decide) rfl rfl).mpr ?_
    intro op hop
    rcases List.mem_cons.mp hop with rfl | hop
    · exact id
    · rcases List.mem_cons.mp hop with rfl | hop
      · exact id
      · obtain rfl := List.mem_singleton.mp hop
        rintro ⟨r, hr, hid⟩
        obtain rfl := List.mem_singleton.mp hr
        exact absurd hid (by decide)
  · intro hwaits
    exact (batch_waits_iff (i := 1) Mealy.Run.nil hrun (by decide) rfl rfl).mp hwaits
      (.frame [.success 2 (.string "0x6002")]) (by simp)
      ⟨_, List.mem_singleton_self _, rfl⟩

end Ethereyum
