/-
# `History` — a client over whole calls, and what every reachable client satisfies

Where `Interleaving` takes the critical sections apart, a history is a list of
whole calls, responses and sweeps, the calls with sends that succeed.  It is
the machine for what concerns one future, one sweep or one subscription beside
everything else the client does.

Three facts hold of every client a history reaches (`Wellformed`): the id
counter and the oneshots advance together, so that the id of the oneshot `tx`
is always `idOf tx`; an entry of `pending` is the id of its sender, which is
unused; and a subscription's channel exists.  No bound on the number of
requests is needed for them: two requests a whole turn of the counter apart
have one id, but an entry is still under the id of its own sender.
-/
import Ethereyum.Lib.Mealy
import Ethereyum.Tables

namespace Ethereyum

/-! ## Histories -/

/-- An event in the life of a client. -/
inductive Op where
  | request (method : String) (params : List Value) (now : Int)
  | batchRequest (requests : List (BatchItem Value)) (now : Int)
  | frame (rs : List RpcResponse)
  | body (rs : List RpcResponse)
  | sweep (now : Int) (order : List (Sigma fun _ : Int => List Nat))
  /-- a `Pubsub` makes its channel -/
  | channel
  /-- a `Pubsub` registers a channel made before -/
  | addSubscription (id : Nat) (tx : ChannelId)

/-- An entry made in `pending`: its key, its sender, and the clock second.
The sender tells the entries of one id apart should the counter wrap around. -/
structure Registration where
  id : Nat
  tx : Oneshot
  second : Int
  deriving DecidableEq

/-- The client as a machine; an event answers with the entries it made. -/
def history (C : Codec) : Mealy Client Op (List Registration) where
  step c
    | .request method params now =>
        some ([⟨c.ids, c.oneshots.length, now⟩],
          (Client.request C c method params Except.ok ⟨now, true⟩).2)
    | .batchRequest requests now =>
        some ((List.range requests.length).map fun i =>
            ⟨(c.ids + i) % word, c.oneshots.length + i, now⟩,
          (c.batchRequest requests true).2)
    | .frame rs => some ([], c.readFrame rs)
    | .body rs => some ([], c.httpBody rs)
    | .sweep now order =>
        if order.Perm c.ts.entries then some ([], c.sweep now order) else none
    | .channel => some ([], c.channel.2)
    | .addSubscription id tx =>
        if tx < c.channels.length then some ([], c.addSubscription id tx) else none

/-- All entries made along a trace. -/
def registrations (tr : List (Op × List Registration)) : List Registration :=
  tr.flatMap Prod.snd

theorem registrations_snoc (tr : List (Op × List Registration)) (op : Op)
    (rs : List Registration) :
    registrations (tr ++ [(op, rs)]) = registrations tr ++ rs := by
  simp [registrations]

/-! ## Reachable clients -/

/-- The id of the request whose answer goes to `tx`. -/
def idOf (tx : Oneshot) : Nat := (tx + 1) % word

/-- Two oneshots less than a turn of the counter apart have different ids. -/
theorem idOf_ne {tx tx' : Nat} (hlt : tx < tx') (hturn : tx' < tx + word) :
    idOf tx' ≠ idOf tx := by
  unfold idOf word at *
  omega

namespace Client

structure Wellformed (c : Client) : Prop where
  ids : c.ids = idOf c.oneshots.length
  pending : ∀ id tx, c.pending.lookup id = some tx →
    id = idOf tx ∧ tx < c.oneshots.length ∧ c.oneshots.get tx = .empty
  subscriptions : ∀ s ch, c.subscriptions.lookup s = some ch → ch < c.channels.length

theorem wellformed_new : new.Wellformed :=
  ⟨rfl, by simp [new], by simp [new]⟩

namespace Wellformed
variable {c : Client}

/-- Only these tables matter. -/
theorem congr (h : c.Wellformed) {c' : Client} (hids : c'.ids = c.ids)
    (hpending : c'.pending = c.pending) (honeshots : c'.oneshots = c.oneshots)
    (hsubscriptions : c'.subscriptions = c.subscriptions)
    (hchannels : c'.channels.length = c.channels.length) : c'.Wellformed where
  ids := by rw [hids, honeshots]; exact h.ids
  pending := by rw [hpending, honeshots]; exact h.pending
  subscriptions := by rw [hsubscriptions, hchannels]; exact h.subscriptions

theorem complete (h : c.Wellformed) (id : Nat) (rv : Except Error Value) :
    (c.complete id rv).2.Wellformed where
  ids := by rw [complete_ids, complete_oneshots_length]; exact h.ids
  pending := by
    intro id' tx' hp
    rw [complete_pending] at hp
    split at hp
    · cases hp
    · rename_i hne
      obtain ⟨hid, hlt, hempty⟩ := h.pending id' tx' hp
      refine ⟨hid, by rwa [complete_oneshots_length], ?_⟩
      rw [complete_oneshots]
      · exact hempty
      · exact fun hp' => hne (hid.trans (h.pending id tx' hp').1.symm)
  subscriptions := by rw [complete_subscriptions, complete_channels]; exact h.subscriptions

theorem register (h : c.Wellformed) : c.register.Wellformed where
  ids := by
    rw [register_ids, register_oneshots_length, h.ids]
    exact Nat.mod_add_mod _ _ _
  pending := by
    intro id tx hp
    rw [register_pending, lookup_insert_iff] at hp
    split at hp
    · rename_i hid
      obtain rfl := Option.some.inj hp
      refine ⟨hid.trans h.ids, by rw [register_oneshots_length]; exact Nat.lt_succ_self _, ?_⟩
      rw [register_oneshots]
      · simp [Oneshots.get]
      · exact fun hp' => absurd (h.pending _ _ hp').2.1 (Nat.lt_irrefl _)
    · rename_i hne
      obtain ⟨hid, hlt, hempty⟩ := h.pending id tx hp
      refine ⟨hid, by rw [register_oneshots_length]; exact Nat.lt_succ_of_lt hlt, ?_⟩
      rw [register_oneshots]
      · exact hempty
      · exact fun hp' => hne (hid.trans (h.pending _ tx hp').1.symm)
  subscriptions := by rw [register_subscriptions, register_channels]; exact h.subscriptions

theorem iterate_register (h : c.Wellformed) (n : Nat) : (Client.register^[n] c).Wellformed := by
  induction n with
  | zero => exact h
  | succ n ih =>
      rw [Function.iterate_succ_apply']
      exact ih.register

theorem notify (h : c.Wellformed) (id : Nat) (v : Value) : (c.notify id v).Wellformed :=
  h.congr (notify_ids c id v) (notify_pending c id v) (notify_oneshots c id v)
    (notify_subscriptions c id v) (notify_channels_length c id v)

theorem readOne (h : c.Wellformed) (r : RpcResponse) : (c.readOne r).Wellformed := by
  cases r with
  | subscription id v => exact h.notify id v
  | success id v => exact h.complete id _
  | failure id e => exact h.complete id _

theorem readFrame (h : c.Wellformed) (rs : List RpcResponse) : (c.readFrame rs).Wellformed :=
  List.foldlRecOn rs Client.readOne h fun _ hc r _ => hc.readOne r

theorem httpBody (h : c.Wellformed) (rs : List RpcResponse) : (c.httpBody rs).Wellformed :=
  List.foldlRecOn rs Client.httpOne h fun _ hc _ _ => hc.complete _ _

theorem sweep (h : c.Wellformed) (now : Int) (order : List (Sigma fun _ : Int => List Nat)) :
    (c.sweep now order).Wellformed := by
  have hscan : ((expiredIds now order).foldl timeOut ([], c)).2.Wellformed := by
    refine List.foldlRecOn (motive := fun acc : List Int × Client => acc.2.Wellformed) _ timeOut
      h ?_
    intro acc hacc id _
    rw [timeOut_snd]
    exact hacc.complete id _
  exact hscan.congr rfl rfl rfl rfl rfl

theorem request (h : c.Wellformed) {α : Type} {C : Codec} {method : String} {params : List Value}
    {de : Value → Except Error α} {env : Env} :
    (Client.request C c method params de env).2.Wellformed := by
  rw [request_client]
  exact h.register.congr rfl rfl rfl rfl rfl

theorem channel (h : c.Wellformed) : c.channel.2.Wellformed := by
  refine ⟨h.ids, h.pending, ?_⟩
  intro s ch hs
  simp only [Client.channel, Channels.unbounded, List.length_append, List.length_singleton]
  exact Nat.lt_succ_of_lt (h.subscriptions s ch hs)

theorem addSubscription (h : c.Wellformed) (id : Nat) {tx : ChannelId}
    (htx : tx < c.channels.length) : (c.addSubscription id tx).Wellformed where
  ids := by rw [addSubscription_ids, addSubscription_oneshots]; exact h.ids
  pending := by rw [addSubscription_pending, addSubscription_oneshots]; exact h.pending
  subscriptions := by
    intro s ch hs
    rw [addSubscription_subscriptions, lookup_insert_iff] at hs
    rw [addSubscription_channels_length]
    split at hs
    · exact Option.some.inj hs ▸ htx
    · exact h.subscriptions s ch hs

end Wellformed

variable {C : Codec}

/-- Every operation keeps a client well-formed. -/
theorem Wellformed.step {c c' : Client} {op : Op} {o : List Registration} (h : c.Wellformed)
    (hstep : (history C).step c op = some (o, c')) : c'.Wellformed := by
  cases op with
  | request method params now =>
      cases hstep
      exact h.request
  | batchRequest requests now =>
      cases hstep
      have hregister := h.iterate_register requests.length
      rw [← registerBatch_client] at hregister
      exact hregister.congr rfl rfl rfl rfl rfl
  | frame rs =>
      cases hstep
      exact h.readFrame rs
  | body rs =>
      cases hstep
      exact h.httpBody rs
  | sweep now order =>
      simp only [history] at hstep
      split at hstep
      · cases hstep
        exact h.sweep now order
      · cases hstep
  | channel =>
      cases hstep
      exact h.channel
  | addSubscription id tx =>
      simp only [history] at hstep
      split at hstep
      · rename_i htx
        cases hstep
        exact h.addSubscription id htx
      · cases hstep

theorem wellformed_of_run {tr : List (Op × List Registration)} {c : Client}
    (h : (history C).Run new tr c) : c.Wellformed :=
  h.invariant (I := fun _ c => c.Wellformed) wellformed_new fun _ hc hstep => hc.step hstep

end Client

/-- Oneshots are only ever added. -/
theorem history_oneshots_mono {C : Codec} {c c' : Client} {op : Op} {o : List Registration}
    (hstep : (history C).step c op = some (o, c')) : c.oneshots.length ≤ c'.oneshots.length := by
  cases op with
  | request method params now =>
      cases hstep
      rw [Client.request_oneshots_length]
      exact Nat.le_succ _
  | batchRequest requests now =>
      cases hstep
      have hlen := Client.iterate_register_oneshots_length requests.length c
      rw [← Client.registerBatch_client] at hlen
      exact Nat.le.intro hlen.symm
  | frame rs =>
      cases hstep
      rw [Client.readFrame_oneshots_length]
  | body rs =>
      cases hstep
      rw [Client.httpBody_oneshots_length]
  | sweep now order =>
      simp only [history] at hstep
      split at hstep
      · cases hstep
        rw [Client.sweep_oneshots_length]
      · cases hstep
  | channel =>
      cases hstep
      exact le_rfl
  | addSubscription id tx =>
      simp only [history] at hstep
      split at hstep
      · cases hstep
        rw [Client.addSubscription_oneshots]
      · cases hstep

/-! ## A future beside a client -/

inductive Event where
  | op (op : Op)
  | poll

/-- A client and a future `κ` of it, which its owner polls at any time; a poll
answers with what it returned. -/
def beside (C : Codec) {κ ο : Type} (poll : Client → κ → Option (ο × Client × κ)) :
    Mealy (Client × κ) Event (Option ο) where
  step s
    | .op op => ((history C).step s.1 op).map fun r => (none, r.2, s.2)
    | .poll => (poll s.1 s.2).map fun r => (some r.1, r.2)

/-- The responses an event dispatches. -/
def Event.responses : Event → List RpcResponse
  | .op (.frame rs) => rs
  | .op (.body rs) => rs
  | _ => []

/-- All responses dispatched along a trace. -/
def responses {ο : Type} (tr : List (Event × ο)) : List RpcResponse :=
  tr.flatMap fun e => e.1.responses

theorem responses_snoc {ο : Type} (tr : List (Event × ο)) (e : Event) (o : ο) :
    responses (tr ++ [(e, o)]) = responses tr ++ e.responses := by
  simp [responses]

end Ethereyum
