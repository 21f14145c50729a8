/-
# `Routing` — whom a notification reaches

The subscription table has one channel under an id.  So a notification reaches the
`Pubsub` that registered last under its id and nobody else, and a registration cuts
off the one that had the id before (`notified_by_last_registration`).  Ids of two
hosts are told apart nowhere: where they collide, the second registration
disconnects the first (`first_host_disconnected`).
-/
import Ethereyum.Subscribers

namespace Ethereyum

/-! ## Where notifications go -/

/-- A sender of the channel is left. -/
def Client.Connected (c : Client) (ch : ChannelId) : Prop :=
  ∃ chan, c.channels[ch]? = some chan ∧ chan.tx = true

section routing
variable {α : Type} {C : Codec} {st st' : Crowd α} {p : Pubsub α} {c : Client} {chan : Channel}
  {tr : List (CrowdEvent α × Option (TurnReport α))} {i : Nat} {m : Subscriber α}

theorem Placed.connected (h : Placed c p chan) :
    c.Connected p.notifications ↔ chan.tx = true := by
  constructor
  · rintro ⟨chan', hchan', htx⟩
    obtain rfl := Option.some.inj (h.channel.symm.trans hchan')
    exact htx
  · intro htx
    exact ⟨chan, h.channel, htx⟩

/-- The table leads to the `Pubsub` that registered last. -/
theorem Kept.lookup_iff (h : Kept tr st) (hm : st.members[i]? = some m) (s : Nat) :
    st.client.subscriptions.lookup s = some m.pubsub.notifications ↔
      registeredLast tr s = some i := by
  constructor
  · intro hs
    cases hlast : registeredLast tr s with
    | none =>
        rw [h.free s hlast] at hs
        cases hs
    | some j =>
        obtain ⟨m', hm', _, _, hlookup⟩ := h.held s j hlast
        rw [hs] at hlookup
        rw [h.apart i j m m' hm hm' (Option.some.inj hlookup)]
  · intro hlast
    obtain ⟨m', hm', _, _, hlookup⟩ := h.held s i hlast
    obtain rfl := Option.some.inj (hm.symm.trans hm')
    exact hlookup

/-- A registered `Pubsub` is connected exactly while none registered after it
under its id. -/
theorem Kept.connected_iff (h : Kept tr st) (hm : st.members[i]? = some m)
    (htx : m.pubsub.tx = none) :
    st.client.Connected m.pubsub.notifications ↔ registeredLast tr m.pubsub.id = some i := by
  obtain ⟨chan, hchan⟩ := h.placed i m hm
  obtain ⟨_, hopen, _⟩ := hchan.listening htx
  rw [hchan.connected, hopen, h.lookup_iff hm]

/-- **A frame from whatever host brings each of its notifications to the `Pubsub`
that registered last under its id and to no other, and a registration disconnects
the one that registered last under the same id and no other.** -/
theorem notified_by_last_registration (hrun : (crowd C α).Run ⟨Client.new, []⟩ tr st)
    (hm : st.members[i]? = some m) :
    (∀ host rs st', (crowd C α).step st (.frame host rs) = some (none, st') →
      st'.client.queued m.pubsub.notifications = st.client.queued m.pubsub.notifications ++
        notes (fun s => registeredLast tr s = some i) rs) ∧
    (m.pubsub.tx = none → (st.client.Connected m.pubsub.notifications ↔
      registeredLast tr m.pubsub.id = some i)) ∧
    ∀ j s st', (crowd C α).step st (.turn j) = some (some ⟨j, none, some s⟩, st') → j ≠ i →
      m.pubsub.tx = none → (st'.client.Connected m.pubsub.notifications ↔
        st.client.Connected m.pubsub.notifications ∧ registeredLast tr s ≠ some i) := by
  have h := kept_of_run hrun
  refine ⟨?_, h.connected_iff hm, ?_⟩
  · intro host rs st' hstep
    cases hstep
    obtain ⟨chan, hchan⟩ := h.placed i m hm
    have hlead : st.client.leadsTo m.pubsub.notifications =
        fun s => decide (registeredLast tr s = some i) := by
      funext s
      exact decide_eq_decide.mpr (h.lookup_iff hm s)
    rw [hchan.queued, (hchan.readFrame rs).queued, hlead]
  · intro j s st' hstep hne htx
    have h' := h.step hstep
    have hm' : st'.members[i]? = some m := by
      obtain ⟨m', res, c', p', _, _, _, rfl⟩ := crowd_turn hstep
      exact (List.getElem?_set_ne hne).trans hm
    rw [h'.connected_iff hm' htx, h.connected_iff hm htx, registeredLast_snoc]
    by_cases hid : s = m.pubsub.id
    · have hthis : registrant m.pubsub.id
          (some (⟨j, none, some s⟩ : TurnReport α)) = some j := by
        simp [registrant, hid]
      rw [hthis, Option.some_or, hid]
      simp [hne]
    · have hother : registrant m.pubsub.id
          (some (⟨j, none, some s⟩ : TurnReport α)) = none := by
        simp [registrant, hid]
      rw [hother, Option.none_or]
      refine (and_iff_left ?_).symm
      intro hlast
      obtain ⟨m'', hm'', _, hs, _⟩ := h.held s i hlast
      obtain rfl := Option.some.inj (hm.symm.trans hm'')
      exact hid hs.symm

end routing

/-! ## Two hosts, one id -/

section hosts
variable {α : Type}

/-- `host` answered the `subscribe` request of `m` with the subscription id `s`. -/
def AnsweredBy (tr : List (CrowdEvent α × Option (TurnReport α))) (m : Subscriber α)
    (host : String) (s : Nat) : Prop :=
  ∃ rs o v, (.frame host rs, o) ∈ tr ∧ .success m.request v ∈ rs ∧ deUsize v = .ok s

/-- No host gave one id to two of the `Pubsub`s. -/
def OwnIds (tr : List (CrowdEvent α × Option (TurnReport α))) (st : Crowd α) : Prop :=
  ∀ (i j : Nat) (m m' : Subscriber α) (host : String) (s : Nat), st.members[i]? = some m →
    st.members[j]? = some m' → AnsweredBy tr m host s → AnsweredBy tr m' host s → i = j

/-- A notification from the host of a `Pubsub` under its id reaches it and no other,
and it is connected. -/
def Isolated (C : Codec) (tr : List (CrowdEvent α × Option (TurnReport α))) (st : Crowd α) :
    Prop :=
  ∀ (i : Nat) (m : Subscriber α) (host : String) (s : Nat), st.members[i]? = some m →
    AnsweredBy tr m host s →
    st.client.Connected m.pubsub.notifications ∧
    ∀ (w : Value) (st' : Crowd α),
      (crowd C α).step st (.frame host [.subscription s w]) = some (none, st') →
      st'.client.queued m.pubsub.notifications =
        st.client.queued m.pubsub.notifications ++ [w] ∧
      ∀ (j : Nat) (m' : Subscriber α), j ≠ i → st.members[j]? = some m' →
        st'.client.queued m'.pubsub.notifications = st.client.queued m'.pubsub.notifications

end hosts

/-- Two `Pubsub`s, one with each host, both of which give out the id 1. -/
def twoHosts : List (CrowdEvent Value) :=
  [.subscribe [] Except.ok ⟨0, true⟩, .subscribe [] Except.ok ⟨0, true⟩,
    .frame "ws://a" [.success 1 (.string "0x1")], .frame "ws://b" [.success 2 (.string "0x1")],
    .turn 0, .turn 1]

/-- What they answer: only the registrations do. -/
def twoHostsTrace : List (CrowdEvent Value × Option (TurnReport Value)) :=
  twoHosts.zip [none, none, none, none, some ⟨0, none, some 1⟩, some ⟨1, none, some 1⟩]

/-- The second one to register gets the notifications of both hosts. -/
theorem second_host_notified : ∃ st m,
    (crowd Client.updateCodec Value).exec ⟨Client.new, []⟩ twoHosts = some (twoHostsTrace, st) ∧
    st.members[1]? = some m ∧ st.client.Connected m.pubsub.notifications := by
  refine ⟨_, _, rfl, rfl, ?_⟩
  have hrun : (crowd Client.updateCodec Value).Run ⟨Client.new, []⟩ twoHostsTrace _ :=
    Mealy.run_of_exec (show (crowd Client.updateCodec Value).exec ⟨Client.new, []⟩ twoHosts =
      some (twoHostsTrace, _) from rfl)
  exact ((notified_by_last_registration hrun (i := 1) rfl).2.1 rfl).mpr rfl

/-- The first one is disconnected. -/
theorem first_host_disconnected : ¬ ∀ (C : Codec)
    (tr : List (CrowdEvent Value × Option (TurnReport Value))) (st : Crowd Value),
    (crowd C Value).Run ⟨Client.new, []⟩ tr st → OwnIds tr st →
    (∀ (i : Nat) (m : Subscriber Value), st.members[i]? = some m → m.pubsub.tx = none) →
    Isolated C tr st := by
  intro h
  have hrun : (crowd Client.updateCodec Value).Run ⟨Client.new, []⟩ twoHostsTrace _ :=
    Mealy.run_of_exec (show (crowd Client.updateCodec Value).exec ⟨Client.new, []⟩ twoHosts =
      some (twoHostsTrace, _) from rfl)
  have hanswered : ∀ {m : Subscriber Value} {host : String} {s : Nat},
      AnsweredBy twoHostsTrace m host s →
        (m.request = 1 ∧ host = "ws://a") ∨ (m.request = 2 ∧ host = "ws://b") := by
    rintro m host s ⟨rs, o, v, he, hr, _⟩
    simp only [twoHostsTrace, twoHosts, List.zip_cons_cons, List.zip_nil_left, List.mem_cons,
      Prod.mk.injEq, CrowdEvent.frame.injEq, reduceCtorEq, false_and, false_or, List.not_mem_nil,
      or_false] at he
    rcases he with ⟨⟨rfl, rfl⟩, _⟩ | ⟨⟨rfl, rfl⟩, _⟩
    · exact Or.inl ⟨(RpcResponse.success.inj (List.mem_singleton.mp hr)).1, rfl⟩
    · exact Or.inr ⟨(RpcResponse.success.inj (List.mem_singleton.mp hr)).1, rfl⟩
  have hisolated := h Client.updateCodec twoHostsTrace _ hrun ?_ ?_ 0 _ "ws://a" 1 rfl
    ⟨_, none, _, List.mem_of_getElem? (i := 2) rfl, List.mem_singleton_self _, rfl⟩
  · obtain ⟨⟨chan, hchan, htx⟩, _⟩ := hisolated
    cases hchan
    cases htx
  · intro i j m m' host s hm hm' ha ha'
    have hsame : m.request = m'.request := by
      rcases hanswered ha with ⟨hm, rfl⟩ | ⟨hm, rfl⟩
      · rcases hanswered ha' with ⟨hm', _⟩ | ⟨_, hhost⟩
        · exact hm.trans hm'.symm
        · exact absurd hhost (by decide)
      · rcases hanswered ha' with ⟨_, hhost⟩ | ⟨hm', _⟩
        · exact absurd hhost (by decide)
        · exact hm.trans hm'.symm
    match i, j, hm, hm' with
    | 0, 0, _, _ => rfl
    | 1, 1, _, _ => rfl
    | 0, 1, hm, hm' => cases hm; cases hm'; exact absurd hsame (by decide)
    | 1, 0, hm, hm' => cases hm; cases hm'; exact absurd hsame (by decide)
  · intro i m hm
    match i, hm with
    | 0, hm => cases hm; rfl
    | 1, hm => cases hm; rfl

end Ethereyum
