/-
# `Delivery` — in what order a subscriber gets its notifications

A channel is a queue: what the read loops dispatch for an id goes in at the end, and a
poll takes from the front.  So while nobody else registers under its id, what a
`Pubsub` has yielded, followed by what waits in its channel, is what was received for
its id since it registered, in that order, less the values that do not decode
(`Account`, `delivered_in_order`).
-/
import Ethereyum.Subscribers

namespace Ethereyum

/-! ## In what order -/

section delivery
variable {α : Type} {C : Codec} {st st' st₀ st₁ : Crowd α} {p : Pubsub α} {c : Client}
  {chan : Channel} {tr tr' : List (CrowdEvent α × Option (TurnReport α))} {i s : Nat}
  {m : Subscriber α}

/-- The item a turn hands out. -/
def TurnReport.item (t : TurnReport α) : Option α :=
  match t.result with
  | some (.ok (.ready item)) => item
  | _ => none

/-- The items the `i`-th `Pubsub` yielded, in order. -/
def yieldedBy (i : Nat) (tr : List (CrowdEvent α × Option (TurnReport α))) : List α :=
  tr.filterMap fun e => e.2.bind fun t => if t.member = i then t.item else none

/-- The values that decode, decoded. -/
def decodable (de : Value → Except Error α) (vs : List Value) : List α :=
  vs.filterMap fun v => (de v).toOption

/-- What the read loops dispatched along a trace, in order. -/
def received (tr : List (CrowdEvent α × Option (TurnReport α))) : List RpcResponse :=
  tr.flatMap fun e => match e.1 with
    | .frame _ rs => rs
    | _ => []

theorem decodable_append (de : Value → Except Error α) (vs vs' : List Value) :
    decodable de (vs ++ vs') = decodable de vs ++ decodable de vs' :=
  List.filterMap_append

theorem notes_append (p : Nat → Bool) (rs rs' : List RpcResponse) :
    notes p (rs ++ rs') = notes p rs ++ notes p rs' :=
  List.filterMap_append

theorem yieldedBy_snoc (tr : List (CrowdEvent α × Option (TurnReport α))) (e : CrowdEvent α)
    (o : Option (TurnReport α)) :
    yieldedBy i (tr ++ [(e, o)]) = yieldedBy i tr ++ yieldedBy i [(e, o)] :=
  List.filterMap_append

theorem received_snoc (tr : List (CrowdEvent α × Option (TurnReport α))) (e : CrowdEvent α)
    (o : Option (TurnReport α)) :
    received (tr ++ [(e, o)]) = received tr ++ received [(e, o)] :=
  List.flatMap_append

/-- A look at the channel hands out the oldest value if it decodes, and takes it off
the queue in any case. -/
theorem Placed.reads_decodable (h : Placed c p chan) :
    yieldedBy i [(CrowdEvent.turn i, some ⟨i, some (Pubsub.pollSubscribed c p).1, none⟩)] ++
      decodable p.de chan.queue.tail = decodable p.de chan.queue := by
  rw [Pubsub.pollSubscribed_fst h.channel]
  cases chan.queue with
  | nil => simp [yieldedBy, TurnReport.item, decodable]
  | cons v queue =>
      cases hde : p.de v with
      | ok t => simp [yieldedBy, TurnReport.item, decodable, hde, Except.toOption]
      | error e => simp [yieldedBy, TurnReport.item, decodable, hde, Except.toOption]

/-- The account of the `i`-th `Pubsub` since it registered under `s`: what it yielded
and what waits in its channel is what was received for `s`. -/
structure Account (i s : Nat) (tr : List (CrowdEvent α × Option (TurnReport α))) (st : Crowd α)
    (m : Subscriber α) (chan : Channel) : Prop where
  member : st.members[i]? = some m
  placed : Placed st.client m.pubsub chan
  registered : m.pubsub.tx = none
  known : st.client.subscriptions.lookup s = some m.pubsub.notifications
  account : yieldedBy i tr ++ decodable m.pubsub.de chan.queue =
    decodable m.pubsub.de (notes (fun s' => s' = s) (received tr))

/-- Only `s` leads to its channel. -/
theorem Account.leadsTo (h : Account i s tr st m chan) :
    st.client.leadsTo m.pubsub.notifications = fun s' => decide (s' = s) := by
  obtain ⟨_, _, hown⟩ := h.placed.listening h.registered
  funext s'
  refine decide_eq_decide.mpr ⟨?_, ?_⟩
  · intro hs'
    exact (hown s' hs').trans (hown s h.known).symm
  · rintro rfl
    exact h.known

/-- The account after a step, from what the step yielded and received. -/
theorem Account.snoc (h : Account i s tr st m chan) {e : CrowdEvent α}
    {o : Option (TurnReport α)} {queue : List Value}
    (hstep : yieldedBy i [(e, o)] ++ decodable m.pubsub.de queue =
      decodable m.pubsub.de chan.queue ++
        decodable m.pubsub.de (notes (fun s' => s' = s) (received [(e, o)]))) :
    yieldedBy i (tr ++ [(e, o)]) ++ decodable m.pubsub.de queue =
      decodable m.pubsub.de (notes (fun s' => s' = s) (received (tr ++ [(e, o)]))) := by
  rw [yieldedBy_snoc, received_snoc, notes_append, decodable_append, List.append_assoc, hstep,
    ← List.append_assoc, h.account]

/-- What every step does to the account, if nobody else registers under `s`. -/
theorem Account.step (h : Account i s tr st m chan) (hkept : Kept tr' st) {e : CrowdEvent α}
    {o : Option (TurnReport α)} (hstep : (crowd C α).step st e = some (o, st'))
    (hown : ∀ j, j ≠ i → registrant s o ≠ some j) :
    ∃ m' chan', Account i s (tr ++ [(e, o)]) st' m' chan' := by
  obtain ⟨hlt, _⟩ := List.getElem?_eq_some_iff.mp h.member
  cases e with
  | frame host rs =>
      cases hstep
      refine ⟨m, _, h.member, h.placed.readFrame rs, h.registered, ?_, h.snoc ?_⟩
      · rw [Client.readFrame_subscriptions]
        exact h.known
      · rw [h.leadsTo, decodable_append]
        simp [received, yieldedBy]
  | subscribe params op env =>
      cases hstep
      refine ⟨m, chan, (List.getElem?_append_left hlt).trans h.member,
        h.placed.subscribe C params op env, h.registered, ?_, h.snoc ?_⟩
      · rw [Client.subscribe_subscriptions]
        exact h.known
      · simp [received, yieldedBy, notes, decodable]
  | other op =>
      obtain ⟨client, members⟩ := st'
      obtain ⟨rfl, rfl, hchannels, hsubscriptions⟩ := crowd_other hstep
      refine ⟨m, chan, h.member, ?_, h.registered, ?_, h.snoc ?_⟩
      · exact h.placed.congr_rfl hsubscriptions
          (congrArg (·[m.pubsub.notifications]?) hchannels)
      · exact (congrArg (·.lookup s) hsubscriptions).trans h.known
      · simp [received, yieldedBy, notes, decodable]
  | turn j =>
      obtain ⟨x, res, c', p', hx, hturn, rfl, rfl⟩ := crowd_turn hstep
      obtain ⟨chanx, hchanx⟩ := hkept.placed j x hx
      have hturn := Pubsub.turns hchanx.done hturn
      by_cases hij : j = i
      · -- its own turn looks at the channel
        subst hij
        obtain rfl := Option.some.inj (h.member.symm.trans hx)
        cases hturn with
        | asks fut res state asking =>
            obtain ⟨hstate, _⟩ := h.placed.listening h.registered
            cases asking.symm.trans hstate
        | registers fut id tx asking sender =>
            rw [h.registered] at sender
            cases sender
        | reads listening =>
            refine ⟨m, _, List.getElem?_set_self hlt, h.placed.reads, h.registered, ?_,
              h.snoc ?_⟩
            · rw [Pubsub.pollSubscribed_snd]
              exact h.known
            · refine h.placed.reads_decodable.trans ?_
              simp [received, notes, decodable]
      · -- the turn of another one leaves the queue alone
        have hapart : m.pubsub.notifications ≠ x.pubsub.notifications := by
          intro heq
          exact hij (hkept.apart j i x m hx h.member heq.symm)
        obtain ⟨tx, hplaced⟩ := h.placed.turn_ne hchanx hapart hturn
        refine ⟨m, _, (List.getElem?_set_ne hij).trans h.member, hplaced, h.registered, ?_,
          h.snoc ?_⟩
        · cases res with
          | some r => rw [hturn.of_returned.1]; exact h.known
          | none =>
              obtain ⟨tx', _, hc', _⟩ := hturn.of_registered
              rw [registrant_registered] at hown
              have hne : p'.id ≠ s := by
                intro hid
                exact hown j hij (if_pos hid)
              rw [hc', Client.addSubscription_subscriptions, lookup_insert_iff, if_neg hne.symm]
              exact h.known
        · simp [received, yieldedBy, notes, decodable, hij]

/-- A registration opens the account: nothing waits in the channel. -/
theorem Account.start (hkept : Kept tr' st)
    (hstep : (crowd C α).step st (.turn i) = some (some ⟨i, none, some s⟩, st')) :
    ∃ m chan, Account i s [] st' m chan := by
  obtain ⟨m, res, c', p', hm, hturn, ho, rfl⟩ := crowd_turn hstep
  obtain ⟨hlt, _⟩ := List.getElem?_eq_some_iff.mp hm
  obtain ⟨chan, hchan⟩ := hkept.placed i m hm
  have hturn := Pubsub.turns hchan.done hturn
  obtain ⟨hi, rfl, hid⟩ := TurnReport.mk.inj (Option.some.inj ho)
  obtain rfl : s = p'.id := by simpa using hid
  obtain ⟨tx, sender, rfl, hp'⟩ := hturn.of_registered
  obtain ⟨rfl, hempty, _⟩ := hchan.waiting tx sender
  refine ⟨_, chan, List.getElem?_set_self hlt, ?_, ?_, ?_, ?_⟩
  · rw [hp']
    exact hchan.addSubscription_self p'.id sender
  · rw [hp']
  · rw [Client.addSubscription_subscriptions, hp']
    exact AList.lookup_insert _
  · rw [hempty]
    rfl

/-- **Delivery in order.**  From its registration under `s` on, as long as nobody else
registers under `s`, what a `Pubsub` yielded, followed by the decodable values in its
channel, is what the read loops dispatched under `s`, in their order and each once. -/
theorem delivered_in_order (hrun : (crowd C α).Run ⟨Client.new, []⟩ tr st₀)
    (hreg : (crowd C α).step st₀ (.turn i) = some (some ⟨i, none, some s⟩, st₁))
    (hafter : (crowd C α).Run st₁ tr' st)
    (hown : ∀ e ∈ tr', ∀ j, j ≠ i → registrant s e.2 ≠ some j) :
    ∃ m, st.members[i]? = some m ∧
      yieldedBy i tr' ++
          decodable m.pubsub.de (st.client.queued m.pubsub.notifications) =
        decodable m.pubsub.de (notes (fun s' => s' = s) (received tr')) := by
  have haccount : ∃ m chan, Account i s tr' st m chan := by
    refine hafter.invariant (I := fun tr' st => (∀ e ∈ tr', ∀ j, j ≠ i →
      registrant s e.2 ≠ some j) → ∃ m chan, Account i s tr' st m chan) ?_ ?_ hown
    · intro _
      exact Account.start (kept_of_run hrun) hreg
    · intro pre t t' e o hpre ih hstep hown
      obtain ⟨m, chan, h⟩ := ih fun e he => hown e (List.mem_append_left _ he)
      have hkept := kept_of_run ((hrun.snoc hreg).trans hpre)
      exact h.step hkept hstep (hown (e, o) (List.mem_append_right _ List.mem_cons_self))
  obtain ⟨m, chan, h⟩ := haccount
  refine ⟨m, h.member, ?_⟩
  rw [h.placed.queued]
  exact h.account

end delivery

/-- A `Pubsub` of numbers that is about to register under 1. -/
def answered : List (CrowdEvent Nat) :=
  [.subscribe [] deUsize ⟨0, true⟩, .frame "ws://a" [.success 1 (.string "0x1")]]

/-- Notifications, one of which does not decode, and an answer, with a poll in between. -/
def mixedFrames : List (CrowdEvent Nat) :=
  [.frame "ws://a" [.subscription 1 (.string "0x7"), .subscription 2 (.string "0x8")], .turn 0,
    .frame "ws://b" [.subscription 1 (.string "seven"), .success 1 (.string "0x9"),
      .subscription 1 (.string "0xa")]]

/-- It yields what decodes. -/
theorem undecodable_skipped : ∃ tr st₀ st₁ tr' st,
    (crowd Client.updateCodec Nat).exec ⟨Client.new, []⟩ answered = some (tr, st₀) ∧
    (crowd Client.updateCodec Nat).step st₀ (.turn 0) = some (some ⟨0, none, some 1⟩, st₁) ∧
    (crowd Client.updateCodec Nat).exec st₁ mixedFrames = some (tr', st) ∧
    ∃ m, st.members[0]? = some m ∧ yieldedBy 0 tr' ++
      decodable m.pubsub.de (st.client.queued m.pubsub.notifications) = [7, 10] := by
  have horder : ∀ tr st₀ st₁ tr' st,
      (crowd Client.updateCodec Nat).exec ⟨Client.new, []⟩ answered = some (tr, st₀) →
      (crowd Client.updateCodec Nat).step st₀ (.turn 0) = some (some ⟨0, none, some 1⟩, st₁) →
      (crowd Client.updateCodec Nat).exec st₁ mixedFrames = some (tr', st) →
      (tr'.all fun e => (registrant 1 e.2).isNone) = true →
      ∃ m, st.members[0]? = some m ∧ yieldedBy 0 tr' ++
        decodable m.pubsub.de (st.client.queued m.pubsub.notifications) =
          decodable m.pubsub.de (notes (fun s => s = 1) (received tr')) := by
    intro tr st₀ st₁ tr' st hbefore hreg hafter hown
    refine delivered_in_order (Mealy.run_of_exec hbefore) hreg (Mealy.run_of_exec hafter) ?_
    intro e he j _ hj
    have hnone := List.all_eq_true.mp hown e he
    rw [hj] at hnone
    cases hnone
  refine ⟨_, _, _, _, _, rfl, rfl, rfl, ?_⟩
  obtain ⟨m, hm, h⟩ := horder _ _ _ _ _ rfl rfl rfl rfl
  obtain rfl := Option.some.inj hm
  exact ⟨_, hm, h.trans rfl⟩

end Ethereyum
