/-
# `Tables` — what each operation does to each table

One lemma for each operation and each table it touches, so that later proofs
cite these and do not unfold the operations.  Read in columns:

    pending     registrations add their own ids, everything else only removes
    ts          `recordTs` adds, `sweep` removes, nothing else looks
    oneshots    registrations append, completions fill an empty slot
-/
import Ethereyum.Dispatch
import Mathlib.Logic.Function.Iterate

namespace Ethereyum

theorem lookup_erase_iff {ν : Type} {κ : Type} [DecidableEq κ] (m : HashMap κ ν) (k k' : κ) :
    (m.erase k').lookup k = if k = k' then none else m.lookup k := by
  by_cases h : k = k'
  · subst h; simp
  · simp [h, AList.lookup_erase_ne h]

theorem lookup_insert_iff {ν : Type} {κ : Type} [DecidableEq κ] (m : HashMap κ ν) (k k' : κ)
    (v : ν) : (m.insert k' v).lookup k = if k = k' then some v else m.lookup k := by
  by_cases h : k = k'
  · subst h; simp
  · simp [h, AList.lookup_insert_ne h]

namespace Client

/-! ## Completing one request -/

section complete
variable (c : Client) (id : Nat) (rv : Except Error Value)

theorem complete_fst : (c.complete id rv).1 = c.pending.lookup id := by
  unfold complete
  split <;> simp_all

theorem complete_pending (id' : Nat) :
    (c.complete id rv).2.pending.lookup id' = if id' = id then none else c.pending.lookup id' := by
  cases h : c.pending.lookup id with
  | none =>
      rw [complete_of_none rv h]
      split
      · rename_i heq; rw [heq, h]
      · rfl
  | some tx =>
      rw [complete_of_some rv h]
      exact lookup_erase_iff c.pending id' id

/-- Completing a request touches `pending` and the oneshots only. -/
theorem complete_frame : ∃ pending oneshots, (c.complete id rv).2 = { c with pending, oneshots } ∧
    oneshots.length = c.oneshots.length := by
  cases h : c.pending.lookup id with
  | none => exact ⟨c.pending, c.oneshots, by rw [complete_of_none rv h], rfl⟩
  | some tx =>
      exact ⟨_, _, by rw [complete_of_some rv h], Oneshots.length_send c.oneshots tx rv⟩

@[simp] theorem complete_ts : (c.complete id rv).2.ts = c.ts := by
  obtain ⟨_, _, h, _⟩ := complete_frame c id rv
  rw [h]

@[simp] theorem complete_ids : (c.complete id rv).2.ids = c.ids := by
  obtain ⟨_, _, h, _⟩ := complete_frame c id rv
  rw [h]

@[simp] theorem complete_subscriptions : (c.complete id rv).2.subscriptions = c.subscriptions := by
  obtain ⟨_, _, h, _⟩ := complete_frame c id rv
  rw [h]

@[simp] theorem complete_channels : (c.complete id rv).2.channels = c.channels := by
  obtain ⟨_, _, h, _⟩ := complete_frame c id rv
  rw [h]

@[simp] theorem complete_oneshots_length :
    (c.complete id rv).2.oneshots.length = c.oneshots.length := by
  obtain ⟨_, _, h, hlen⟩ := complete_frame c id rv
  rw [h]
  exact hlen

theorem complete_oneshots {tx : Oneshot} (h : c.pending.lookup id ≠ some tx) :
    (c.complete id rv).2.oneshots.get tx = c.oneshots.get tx := by
  unfold complete
  split
  · rfl
  · rename_i tx' htx'
    exact Oneshots.get_send_ne rv fun heq => h (heq ▸ htx')

/-- A slot that was written keeps what was written. -/
theorem complete_written {tx : Oneshot} (h : c.oneshots.get tx ≠ .empty) :
    (c.complete id rv).2.oneshots.get tx = c.oneshots.get tx := by
  unfold complete
  split
  · rfl
  · exact Oneshots.get_send_of_ne_empty rv h

end complete

/-! ## Dispatch -/

section dispatch
variable (c : Client)

/-- A notification touches the channels only. -/
theorem notify_frame (id : Nat) (v : Value) : ∃ channels, c.notify id v = { c with channels } ∧
    channels.length = c.channels.length := by
  unfold notify
  split
  · exact ⟨c.channels, rfl, rfl⟩
  · exact ⟨_, rfl, List.length_modify _ _ _⟩

@[simp] theorem notify_pending (id : Nat) (v : Value) : (c.notify id v).pending = c.pending := by
  obtain ⟨_, h, _⟩ := notify_frame c id v
  rw [h]

@[simp] theorem notify_ts (id : Nat) (v : Value) : (c.notify id v).ts = c.ts := by
  obtain ⟨_, h, _⟩ := notify_frame c id v
  rw [h]

@[simp] theorem notify_ids (id : Nat) (v : Value) : (c.notify id v).ids = c.ids := by
  obtain ⟨_, h, _⟩ := notify_frame c id v
  rw [h]

@[simp] theorem notify_oneshots (id : Nat) (v : Value) : (c.notify id v).oneshots = c.oneshots := by
  obtain ⟨_, h, _⟩ := notify_frame c id v
  rw [h]

@[simp] theorem notify_subscriptions (id : Nat) (v : Value) :
    (c.notify id v).subscriptions = c.subscriptions := by
  obtain ⟨_, h, _⟩ := notify_frame c id v
  rw [h]

@[simp] theorem notify_channels_length (id : Nat) (v : Value) :
    (c.notify id v).channels.length = c.channels.length := by
  obtain ⟨_, h, hlen⟩ := notify_frame c id v
  rw [h]
  exact hlen

/-- A response never adds to `pending`. -/
theorem readOne_pending {r : RpcResponse} {id : Nat} {tx : Oneshot}
    (h : (c.readOne r).pending.lookup id = some tx) : c.pending.lookup id = some tx := by
  cases r with
  | subscription s v => simpa [readOne] using h
  | success id' v =>
      simp only [readOne, complete_pending] at h
      split at h
      · cases h
      · exact h
  | failure id' e =>
      simp only [readOne, complete_pending] at h
      split at h
      · cases h
      · exact h

/-- An entry goes only with an answer to its id. -/
theorem readOne_pending_of_ne {r : RpcResponse} {id : Nat} (h : r.requestId ≠ some id) :
    (c.readOne r).pending.lookup id = c.pending.lookup id := by
  cases r with
  | subscription s v => simp [readOne]
  | success id' v =>
      have hne : id ≠ id' := fun heq => h (congrArg some heq.symm)
      simp [readOne, complete_pending, RpcResponse.intoResponse, hne]
  | failure id' e =>
      have hne : id ≠ id' := fun heq => h (congrArg some heq.symm)
      simp [readOne, complete_pending, RpcResponse.intoResponse, hne]

theorem readOne_pending_answered {r : RpcResponse} {id : Nat} (h : r.requestId = some id) :
    (c.readOne r).pending.lookup id = none := by
  obtain ⟨hsub, rfl⟩ := RpcResponse.requestId_eq_some.mp h
  rw [readOne_eq_httpOne c hsub, httpOne, complete_pending, if_pos rfl]

/-- A slot that was written keeps what was written. -/
theorem readOne_written (r : RpcResponse) {tx : Oneshot} (h : c.oneshots.get tx ≠ .empty) :
    (c.readOne r).oneshots.get tx = c.oneshots.get tx := by
  cases r with
  | subscription s v => simp [readOne]
  | success id' v => exact complete_written _ _ _ h
  | failure id' e => exact complete_written _ _ _ h

@[simp] theorem readOne_subscriptions (r : RpcResponse) :
    (c.readOne r).subscriptions = c.subscriptions := by
  cases r <;> simp [readOne]

theorem httpOne_pending {r : RpcResponse} {id : Nat} {tx : Oneshot}
    (h : (c.httpOne r).pending.lookup id = some tx) : c.pending.lookup id = some tx := by
  simp only [httpOne, complete_pending] at h
  split at h
  · cases h
  · exact h

@[simp] theorem readOne_ts (r : RpcResponse) : (c.readOne r).ts = c.ts := by
  cases r <;> simp [readOne]

@[simp] theorem httpOne_ts (r : RpcResponse) : (c.httpOne r).ts = c.ts := by
  simp [httpOne]

@[simp] theorem readOne_oneshots_length (r : RpcResponse) :
    (c.readOne r).oneshots.length = c.oneshots.length := by
  cases r <;> simp [readOne]

@[simp] theorem httpOne_oneshots_length (r : RpcResponse) :
    (c.httpOne r).oneshots.length = c.oneshots.length := by
  simp [httpOne]

end dispatch

/-- What each turn of a dispatch loop keeps, the loop keeps. -/
theorem foldl_keeps {β : Type} (P : Client → β) {f : Client → RpcResponse → Client}
    (h : ∀ c r, P (f c r) = P c) (rs : List RpcResponse) (c : Client) :
    P (rs.foldl f c) = P c := by
  induction rs generalizing c with
  | nil => rfl
  | cons r rs ih => rw [List.foldl_cons, ih, h]

/-- What a turn of a dispatch loop finds in `pending` was there before the loop. -/
theorem foldl_pending {f : Client → RpcResponse → Client}
    (h : ∀ (c : Client) r id tx, (f c r).pending.lookup id = some tx →
      c.pending.lookup id = some tx)
    {rs : List RpcResponse} {c : Client} {id : Nat} {tx : Oneshot}
    (hrs : (rs.foldl f c).pending.lookup id = some tx) : c.pending.lookup id = some tx := by
  induction rs generalizing c with
  | nil => exact hrs
  | cons r rs ih => exact h _ _ _ _ (ih hrs)

section frames
variable (c : Client) (rs : List RpcResponse)

theorem readFrame_pending {id : Nat} {tx : Oneshot}
    (h : (c.readFrame rs).pending.lookup id = some tx) : c.pending.lookup id = some tx :=
  foldl_pending (fun c _ _ _ => readOne_pending c) h

theorem httpBody_pending {id : Nat} {tx : Oneshot}
    (h : (c.httpBody rs).pending.lookup id = some tx) : c.pending.lookup id = some tx :=
  foldl_pending (fun c _ _ _ => httpOne_pending c) h

@[simp] theorem readFrame_ts : (c.readFrame rs).ts = c.ts :=
  foldl_keeps ts readOne_ts rs c

@[simp] theorem httpBody_ts : (c.httpBody rs).ts = c.ts :=
  foldl_keeps ts httpOne_ts rs c

@[simp] theorem readFrame_oneshots_length :
    (c.readFrame rs).oneshots.length = c.oneshots.length :=
  foldl_keeps (fun c => c.oneshots.length) readOne_oneshots_length rs c

@[simp] theorem httpBody_oneshots_length :
    (c.httpBody rs).oneshots.length = c.oneshots.length :=
  foldl_keeps (fun c => c.oneshots.length) httpOne_oneshots_length rs c

end frames

/-! ## The sweep -/

/-- The ids a sweep looks up are those of the buckets at least ten seconds old. -/
theorem mem_expiredIds {c : Client} {now : Int} {order : List (Sigma fun _ : Int => List Nat)}
    (horder : order.Perm c.ts.entries) {id : Nat} :
    id ∈ expiredIds now order ↔ ∃ k vs, c.ts.lookup k = some vs ∧ now - k ≥ 10 ∧ id ∈ vs := by
  simp only [expiredIds, List.mem_flatMap, List.mem_filter, decide_eq_true_eq]
  constructor
  · rintro ⟨⟨k, vs⟩, ⟨hb, hk⟩, hid⟩
    exact ⟨k, vs, AList.mem_lookup_iff.mpr (horder.mem_iff.mp hb), hk, hid⟩
  · rintro ⟨k, vs, hlookup, hk, hid⟩
    exact ⟨⟨k, vs⟩, ⟨horder.mem_iff.mpr (AList.mem_lookup_iff.mp hlookup), hk⟩, hid⟩

theorem timeOut_snd (acc : List Int × Client) (id : Nat) :
    (timeOut acc id).2 = (acc.2.complete id (.error timedOut)).2 := by
  unfold timeOut
  split <;> simp [*]

theorem mem_timeOut_fst {acc : List Int × Client} {id : Nat} {k : Int} :
    k ∈ (timeOut acc id).1 ↔
      k ∈ acc.1 ∨ (acc.2.pending.lookup id ≠ none ∧ k = asI64 id) := by
  have hfst := complete_fst acc.2 id (.error timedOut)
  unfold timeOut
  split
  · rename_i tx c heq
    rw [heq] at hfst
    simp [← hfst]
  · rename_i c heq
    rw [heq] at hfst
    simp [← hfst]

/-- The scan of a sweep removes the ids it looks up, and notes those it found. -/
theorem foldl_timeOut (ids : List Nat) (acc : List Int × Client) :
    (∀ id, (ids.foldl timeOut acc).2.pending.lookup id =
      if id ∈ ids then none else acc.2.pending.lookup id) ∧
    (∀ k, k ∈ (ids.foldl timeOut acc).1 ↔
      k ∈ acc.1 ∨ ∃ id ∈ ids, acc.2.pending.lookup id ≠ none ∧ k = asI64 id) ∧
    (ids.foldl timeOut acc).2.ts = acc.2.ts ∧
    (ids.foldl timeOut acc).2.oneshots.length = acc.2.oneshots.length := by
  induction ids generalizing acc with
  | nil => simp
  | cons v ids ih =>
      obtain ⟨hpending, hremoved, hts, hlen⟩ := ih (timeOut acc v)
      simp only [List.foldl_cons]
      refine ⟨?_, ?_, ?_, ?_⟩
      · intro id
        rw [hpending, timeOut_snd, complete_pending]
        by_cases hid : id = v <;> by_cases hmem : id ∈ ids <;> simp [hid, hmem]
      · intro k
        rw [hremoved, mem_timeOut_fst, timeOut_snd]
        constructor
        · rintro ((hk | ⟨hv, hk⟩) | ⟨id, hid, hfound, hk⟩)
          · exact Or.inl hk
          · exact Or.inr ⟨v, List.mem_cons_self, hv, hk⟩
          · refine Or.inr ⟨id, List.mem_cons_of_mem _ hid, ?_, hk⟩
            rw [complete_pending] at hfound
            split at hfound
            · exact absurd rfl hfound
            · exact hfound
        · rintro (hk | ⟨id, hid, hfound, hk⟩)
          · exact Or.inl (Or.inl hk)
          · by_cases hv : id = v
            · subst hv
              exact Or.inl (Or.inr ⟨hfound, hk⟩)
            · refine Or.inr ⟨id, (List.mem_cons.mp hid).resolve_left hv, ?_, hk⟩
              rw [complete_pending, if_neg hv]
              exact hfound
      · rw [hts, timeOut_snd, complete_ts]
      · rw [hlen, timeOut_snd, complete_oneshots_length]

/-- What a removal from `pending` keeps, the scan of a sweep keeps. -/
theorem foldl_timeOut_keeps {β : Type} (P : Client → β)
    (h : ∀ (c : Client) id rv, P (c.complete id rv).2 = P c) (ids : List Nat)
    (acc : List Int × Client) : P (ids.foldl timeOut acc).2 = P acc.2 := by
  induction ids generalizing acc with
  | nil => rfl
  | cons id ids ih => rw [List.foldl_cons, ih, timeOut_snd, h]

theorem lookup_foldl_erase {κ ν : Type} [DecidableEq κ] (ks : List κ) (m : HashMap κ ν) (k : κ) :
    (ks.foldl (fun m rem => m.erase rem) m).lookup k = if k ∈ ks then none else m.lookup k := by
  induction ks generalizing m with
  | nil => simp
  | cons r ks ih =>
      rw [List.foldl_cons, ih, lookup_erase_iff]
      by_cases hr : k = r <;> by_cases hmem : k ∈ ks <;> simp [hr, hmem]

section sweep
variable (c : Client) (now : Int) (order : List (Sigma fun _ : Int => List Nat))

theorem sweep_pending (id : Nat) : (c.sweep now order).pending.lookup id =
    if id ∈ expiredIds now order then none else c.pending.lookup id :=
  (foldl_timeOut _ ([], c)).1 id

/-- The sweep removes the buckets keyed by the ids it timed out. -/
theorem sweep_ts (k : Int) : (c.sweep now order).ts.lookup k =
    if ∃ id ∈ expiredIds now order, c.pending.lookup id ≠ none ∧ k = asI64 id then none
    else c.ts.lookup k := by
  obtain ⟨_, hremoved, hts, _⟩ := foldl_timeOut (expiredIds now order) ([], c)
  have hk := hremoved k
  simp only [List.not_mem_nil, false_or] at hk
  simp only [sweep, lookup_foldl_erase, hts, hk]

@[simp] theorem sweep_oneshots_length :
    (c.sweep now order).oneshots.length = c.oneshots.length :=
  (foldl_timeOut _ ([], c)).2.2.2

end sweep

/-! ## Registration -/

section insert
variable (c : Client) (id : Nat) (tx : Oneshot)

/-- An insertion touches `pending` and the slot of the sender it replaces. -/
theorem insertPending_frame : ∃ oneshots, (c.insertPending id tx).2 =
    { c with pending := c.pending.insert id tx, oneshots } ∧
    oneshots.length = c.oneshots.length := by
  unfold insertPending
  split
  · exact ⟨c.oneshots, rfl, rfl⟩
  · exact ⟨_, rfl, Oneshots.length_dropSender _ _⟩

/-- Only the slot of the sender it replaces changes. -/
theorem insertPending_oneshots {tx' : Oneshot} (h : c.pending.lookup id ≠ some tx') :
    (c.insertPending id tx).2.oneshots.get tx' = c.oneshots.get tx' := by
  unfold insertPending
  split
  · rfl
  · rename_i old hold
    exact Oneshots.get_dropSender_ne fun heq => h (heq ▸ hold)

theorem insertPending_written {tx' : Oneshot} (h : c.oneshots.get tx' ≠ .empty) :
    (c.insertPending id tx).2.oneshots.get tx' = c.oneshots.get tx' := by
  unfold insertPending
  split
  · rfl
  · exact Oneshots.get_dropSender_of_ne_empty h

end insert

theorem recordTs_ts (c : Client) (now : Int) (id : Nat) (k : Int) :
    (c.recordTs now id).ts.lookup k =
      if k = now then some ((c.ts.lookup now).getD [] ++ [id]) else c.ts.lookup k :=
  lookup_insert_iff c.ts k now _

/-- `oneshot::channel`, `next_id` and `pending.insert` in a row, as both
registration paths do them. -/
def register (c : Client) : Client :=
  (insertPending { c with oneshots := c.oneshots ++ [.empty], ids := (c.ids + 1) % word }
    c.ids c.oneshots.length).2

section register
variable (c : Client)

theorem register_frame : ∃ oneshots, c.register =
    { c with pending := c.pending.insert c.ids c.oneshots.length, oneshots,
             ids := (c.ids + 1) % word } ∧
    oneshots.length = c.oneshots.length + 1 := by
  obtain ⟨oneshots, h, hlen⟩ := insertPending_frame
    { c with oneshots := c.oneshots ++ [.empty], ids := (c.ids + 1) % word }
    c.ids c.oneshots.length
  refine ⟨oneshots, h, ?_⟩
  rw [hlen, List.length_append, List.length_singleton]

@[simp] theorem register_ids : c.register.ids = (c.ids + 1) % word := by
  obtain ⟨_, h, _⟩ := register_frame c
  rw [h]

@[simp] theorem register_pending :
    c.register.pending = c.pending.insert c.ids c.oneshots.length := by
  obtain ⟨_, h, _⟩ := register_frame c
  rw [h]

@[simp] theorem register_ts : c.register.ts = c.ts := by
  obtain ⟨_, h, _⟩ := register_frame c
  rw [h]

@[simp] theorem register_subscriptions : c.register.subscriptions = c.subscriptions := by
  obtain ⟨_, h, _⟩ := register_frame c
  rw [h]

@[simp] theorem register_channels : c.register.channels = c.channels := by
  obtain ⟨_, h, _⟩ := register_frame c
  rw [h]

@[simp] theorem register_wire : c.register.wire = c.wire := by
  obtain ⟨_, h, _⟩ := register_frame c
  rw [h]

@[simp] theorem register_oneshots_length :
    c.register.oneshots.length = c.oneshots.length + 1 := by
  obtain ⟨_, h, hlen⟩ := register_frame c
  rw [h]
  exact hlen

theorem register_oneshots {tx : Oneshot} (h : c.pending.lookup c.ids ≠ some tx) :
    c.register.oneshots.get tx = c.oneshots.get tx := by
  unfold register
  rw [insertPending_oneshots]
  · exact Oneshots.get_channel c.oneshots tx
  · exact h

theorem register_written {tx : Oneshot} (h : c.oneshots.get tx ≠ .empty) :
    c.register.oneshots.get tx = c.oneshots.get tx := by
  unfold register
  rw [insertPending_written]
  · exact Oneshots.get_channel c.oneshots tx
  · exact fun hempty => h ((Oneshots.get_channel c.oneshots tx).symm.trans hempty)

end register

section addSubscription
variable (c : Client) (id : Nat) (tx : ChannelId)

/-- A registration of a channel touches the subscriptions, and closes no channel
but that of the sender it replaces. -/
theorem addSubscription_frame : ∃ channels, c.addSubscription id tx =
    { c with subscriptions := c.subscriptions.insert id tx, channels } ∧
    channels.length = c.channels.length := by
  unfold addSubscription
  split
  · exact ⟨c.channels, rfl, rfl⟩
  · exact ⟨_, rfl, List.length_modify _ _ _⟩

@[simp] theorem addSubscription_ids : (c.addSubscription id tx).ids = c.ids := by
  obtain ⟨_, h, _⟩ := addSubscription_frame c id tx
  rw [h]

@[simp] theorem addSubscription_pending : (c.addSubscription id tx).pending = c.pending := by
  obtain ⟨_, h, _⟩ := addSubscription_frame c id tx
  rw [h]

@[simp] theorem addSubscription_ts : (c.addSubscription id tx).ts = c.ts := by
  obtain ⟨_, h, _⟩ := addSubscription_frame c id tx
  rw [h]

@[simp] theorem addSubscription_oneshots : (c.addSubscription id tx).oneshots = c.oneshots := by
  obtain ⟨_, h, _⟩ := addSubscription_frame c id tx
  rw [h]

@[simp] theorem addSubscription_subscriptions :
    (c.addSubscription id tx).subscriptions = c.subscriptions.insert id tx := by
  obtain ⟨_, h, _⟩ := addSubscription_frame c id tx
  rw [h]

@[simp] theorem addSubscription_channels_length :
    (c.addSubscription id tx).channels.length = c.channels.length := by
  obtain ⟨_, h, hlen⟩ := addSubscription_frame c id tx
  rw [h]
  exact hlen

end addSubscription

section request
variable {α : Type} (C : Codec) (c : Client) (method : String) (params : List Value)
  (de : Value → Except Error α) (env : Env)

/-- The tables after `request` do not depend on whether the send succeeds. -/
theorem request_client : (request C c method params de env).2 =
    (c.register.recordTs env.now c.ids).push (.single (buildRequest c.ids method params)) := by
  simp only [request, oneshotChannel, nextId, Oneshots.channel, register]
  split <;> rfl

@[simp] theorem request_pending : (request C c method params de env).2.pending =
    c.pending.insert c.ids c.oneshots.length := by
  rw [request_client]
  exact register_pending c

theorem request_ts (k : Int) : (request C c method params de env).2.ts.lookup k =
    if k = env.now then some ((c.ts.lookup env.now).getD [] ++ [c.ids]) else c.ts.lookup k := by
  rw [request_client]
  simp only [push, recordTs_ts, register_ts]

@[simp] theorem request_oneshots_length :
    (request C c method params de env).2.oneshots.length = c.oneshots.length + 1 := by
  rw [request_client]
  exact register_oneshots_length c

end request

section registerBatch
variable {α : Type}

/-- The tables after the registration loop do not depend on what the requests are. -/
theorem registerBatch_client (requests : List (BatchItem α)) (c : Client) :
    (registerBatch requests c).2.2 = register^[requests.length] c := by
  induction requests generalizing c with
  | nil => rfl
  | cons item rest ih =>
      rw [List.length_cons, Function.iterate_succ_apply, ← ih]
      rfl

/-- The tables after `batch_request` do not depend on whether the send succeeds. -/
theorem batchRequest_client (c : Client) (requests : List (BatchItem α)) (sent : Bool) :
    (c.batchRequest requests sent).2 =
      (register^[requests.length] c).push (.batch (registerBatch requests c).1) := by
  rw [← registerBatch_client]
  cases sent with
  | false => rfl
  | true => rfl

theorem iterate_register_oneshots_length (n : Nat) (c : Client) :
    (register^[n] c).oneshots.length = c.oneshots.length + n := by
  induction n with
  | zero => rfl
  | succ n ih => rw [Function.iterate_succ_apply', register_oneshots_length, ih, Nat.add_assoc]

/-- What a registration keeps, any number of them keeps. -/
theorem iterate_register_keeps {β : Type} (P : Client → β) (h : ∀ c, P c.register = P c)
    (n : Nat) (c : Client) : P (register^[n] c) = P c := by
  induction n with
  | zero => rfl
  | succ n ih => rw [Function.iterate_succ_apply', h, ih]

theorem iterate_register_wire (n : Nat) (c : Client) : (register^[n] c).wire = c.wire :=
  iterate_register_keeps wire register_wire n c

/-- The receivers stand in the order of the requests, each with its own decoder. -/
theorem registerBatch_responses (requests : List (BatchItem α)) (c : Client) :
    (registerBatch requests c).2.1 =
      requests.mapIdx fun i item => (c.oneshots.length + i, item.de) := by
  induction requests generalizing c with
  | nil => rfl
  | cons item rest ih =>
      have hrest := ih c.register
      simp only [register_oneshots_length, Nat.add_assoc, Nat.add_comm 1] at hrest
      rw [List.mapIdx_cons, ← hrest]
      rfl

/-- Each call goes out under the id its position gives it. -/
theorem registerBatch_calls (requests : List (BatchItem α)) {c : Client} (hids : c.ids < word) :
    (registerBatch requests c).1 = requests.mapIdx fun i item =>
      buildRequest ((c.ids + i) % word) item.method item.params := by
  induction requests generalizing c with
  | nil => rfl
  | cons item rest ih =>
      have hnext : c.register.ids < word := by
        rw [register_ids]
        exact Nat.mod_lt _ (by decide)
      have hrest := ih hnext
      simp only [register_ids, Nat.mod_add_mod, Nat.add_assoc, Nat.add_comm 1] at hrest
      rw [List.mapIdx_cons, ← hrest, Nat.add_zero, Nat.mod_eq_of_lt hids]
      rfl

end registerBatch

end Client

end Ethereyum
