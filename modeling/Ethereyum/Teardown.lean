/-
# `Teardown` — what becomes of the futures when the client goes away

A oneshot that is still open has its sender in `pending`, under the id of its request:

    request        opens a oneshot, and inserts its sender
    a response     takes a sender out, and sends on it
    the sweep      takes senders out, and sends the timeout on them
    the same id    replaces a sender, which goes out of scope

So the table holds the open oneshots and no others (`pending_iff_open`), for any number of
requests.  `Drop for Client` clears it.  What was answered stays answered, and every future
that still waits is canceled: none is left waiting (`resolved_after_drop`).
-/
import Ethereyum.History

namespace Ethereyum

namespace Client

/-- `Drop::drop`, for the tables: `pending.lock().clear()`, and the senders in it go out of
scope. -/
def drop (c : Client) : Client :=
  { c with
    pending := ∅
    oneshots := c.pending.entries.foldl (fun o entry => o.dropSender entry.2) c.oneshots }

end Client

/-- Every open oneshot has its sender in `pending`. -/
def Listed (pending : HashMap Nat Oneshot) (oneshots : Oneshots) : Prop :=
  ∀ tx, tx < oneshots.length → oneshots.get tx = .empty → pending.lookup (idOf tx) = some tx

/-! ## What every operation keeps -/

theorem Oneshots.get_dropSender_self {o : Oneshots} {tx : Oneshot} (hlt : tx < o.length)
    (hempty : o.get tx = .empty) : (o.dropSender tx).get tx = .dropped := by
  unfold dropSender
  rw [hempty]
  simp [get, hlt]

/-- The sender that a registration replaces. -/
theorem Client.register_replaced {c : Client} {tx : Oneshot}
    (hfound : c.pending.lookup c.ids = some tx)
    (hopen : tx < c.oneshots.length ∧ c.oneshots.get tx = .empty) :
    c.register.oneshots.get tx = .dropped := by
  have hlt : tx < (c.oneshots ++ [Slot.empty]).length := by
    rw [List.length_append]
    exact Nat.lt_add_right _ hopen.1
  have hempty : Oneshots.get (c.oneshots ++ [Slot.empty]) tx = .empty :=
    (Oneshots.get_channel c.oneshots tx).trans hopen.2
  simp only [register, insertPending, hfound]
  exact Oneshots.get_dropSender_self hlt hempty

section keeps
variable {C : Codec} {c c' : Client} {op : Op} {o : List Registration}

/-- Every completion the operation attempts is one of `Q`. -/
def Op.Completes (Q : Nat → Except Error Value → Prop) : Op → Prop
  | .frame rs => ∀ r ∈ rs, r.isSubscription = false → Q r.intoResponse.1 r.intoResponse.2
  | .body rs => ∀ r ∈ rs, Q r.intoResponse.1 r.intoResponse.2
  | .sweep now order => ∀ id ∈ Client.expiredIds now order, Q id (.error Client.timedOut)
  | _ => True

theorem Op.completes_of_forall {Q : Nat → Except Error Value → Prop} (h : ∀ id rv, Q id rv)
    (op : Op) : op.Completes Q := by
  cases op <;> simp [Completes, h]

/-- What the completions of `Q` and registering a request keep, every operation with these
completions keeps, if it is about `pending` and the oneshots. -/
theorem history_keeps {P : HashMap Nat Oneshot → Oneshots → Prop}
    {Q : Nat → Except Error Value → Prop} (hQ : op.Completes Q)
    (hcomplete : ∀ (c : Client) id rv, Q id rv → c.Wellformed → P c.pending c.oneshots →
      P (c.complete id rv).2.pending (c.complete id rv).2.oneshots)
    (hregister : ∀ c : Client, c.Wellformed → P c.pending c.oneshots →
      P c.register.pending c.register.oneshots)
    (hwell : c.Wellformed) (h : P c.pending c.oneshots)
    (hstep : (history C).step c op = some (o, c')) : P c'.pending c'.oneshots := by
  cases op with
  | request method params now =>
      cases hstep
      rw [Client.request_client]
      exact hregister c hwell h
  | batchRequest requests now =>
      cases hstep
      have hregistered : ∀ n,
          P (Client.register^[n] c).pending (Client.register^[n] c).oneshots := by
        intro n
        induction n with
        | zero => exact h
        | succ n ih =>
            rw [Function.iterate_succ_apply']
            exact hregister _ (hwell.iterate_register n) ih
      rw [Client.batchRequest_client]
      exact hregistered requests.length
  | frame rs =>
      cases hstep
      refine (List.foldlRecOn (motive := fun c => c.Wellformed ∧ P c.pending c.oneshots) rs
        Client.readOne ⟨hwell, h⟩ ?_).2
      intro c hc r hr
      refine ⟨hc.1.readOne r, ?_⟩
      cases r with
      | subscription id v =>
          rw [Client.readOne, Client.notify_pending, Client.notify_oneshots]
          exact hc.2
      | success id v => exact hcomplete c id _ (hQ _ hr rfl) hc.1 hc.2
      | failure id e => exact hcomplete c id _ (hQ _ hr rfl) hc.1 hc.2
  | body rs =>
      cases hstep
      refine (List.foldlRecOn (motive := fun c => c.Wellformed ∧ P c.pending c.oneshots) rs
        Client.httpOne ⟨hwell, h⟩ ?_).2
      intro c hc r hr
      exact ⟨hc.1.complete _ _, hcomplete c _ _ (hQ r hr) hc.1 hc.2⟩
  | sweep now order =>
      simp only [history] at hstep
      split at hstep
      · cases hstep
        refine (List.foldlRecOn
          (motive := fun acc : List Int × Client => acc.2.Wellformed ∧
            P acc.2.pending acc.2.oneshots)
          (Client.expiredIds now order) Client.timeOut (b := ([], c)) ⟨hwell, h⟩ ?_).2
        intro acc hacc id hid
        rw [Client.timeOut_snd]
        exact ⟨hacc.1.complete id _, hcomplete _ id _ (hQ id hid) hacc.1 hacc.2⟩
      · cases hstep
  | channel =>
      cases hstep
      exact h
  | addSubscription id tx =>
      simp only [history] at hstep
      split at hstep
      · cases hstep
        rw [Client.addSubscription_pending, Client.addSubscription_oneshots]
        exact h
      · cases hstep

/-- An answer takes the sender out that it is sent on. -/
theorem Listed.complete (h : Listed c.pending c.oneshots) (hwell : c.Wellformed) (id : Nat)
    (rv : Except Error Value) :
    Listed (c.complete id rv).2.pending (c.complete id rv).2.oneshots := by
  intro tx hlt hempty
  rw [Client.complete_oneshots_length] at hlt
  by_cases hfound : c.pending.lookup id = some tx
  · obtain ⟨_, _, hopen⟩ := hwell.pending id tx hfound
    have hsent := Oneshots.get_send_self rv hlt hopen
    rw [Client.complete_of_some rv hfound] at hempty
    exact absurd (hsent.symm.trans hempty) (by simp)
  · rw [Client.complete_oneshots c id rv hfound] at hempty
    have hlookup := h tx hlt hempty
    rw [Client.complete_pending, if_neg, hlookup]
    rintro rfl
    exact hfound hlookup

/-- A registration puts the new sender in, and the one it replaces goes out of scope. -/
theorem Listed.register (h : Listed c.pending c.oneshots) (hwell : c.Wellformed) :
    Listed c.register.pending c.register.oneshots := by
  intro tx hlt hempty
  rw [Client.register_oneshots_length] at hlt
  rw [Client.register_pending, lookup_insert_iff]
  rcases Nat.lt_succ_iff_lt_or_eq.mp hlt with hold | rfl
  · by_cases hfound : c.pending.lookup c.ids = some tx
    · have hdropped := Client.register_replaced hfound (hwell.pending _ _ hfound).2
      exact absurd (hdropped.symm.trans hempty) (by simp)
    · rw [Client.register_oneshots c hfound] at hempty
      have hlookup := h tx hold hempty
      rw [if_neg, hlookup]
      intro hid
      rw [← hid] at hfound
      exact hfound hlookup
  · rw [if_pos hwell.ids.symm]

/-- Every operation keeps the open oneshots listed. -/
theorem Listed.step (h : Listed c.pending c.oneshots) (hwell : c.Wellformed)
    (hstep : (history C).step c op = some (o, c')) : Listed c'.pending c'.oneshots :=
  history_keeps (Op.completes_of_forall (fun _ _ => trivial) op)
    (fun _ id rv _ hwell h => h.complete hwell id rv) (fun _ hwell h => h.register hwell)
    hwell h hstep

theorem listed_of_run {tr : List (Op × List Registration)}
    (hrun : (history C).Run Client.new tr c) : Listed c.pending c.oneshots := by
  refine hrun.invariant (I := fun _ c => Listed c.pending c.oneshots) ?_ ?_
  · intro tx hlt
    exact absurd hlt (Nat.not_lt_zero tx)
  · intro tr t t' op o hrun ih hstep
    exact ih.step (Client.wellformed_of_run hrun) hstep

/-- **The table holds the senders of the open oneshots, each under the id of its request,
and no others.** -/
theorem pending_iff_open {tr : List (Op × List Registration)}
    (hrun : (history C).Run Client.new tr c) (id : Nat) (tx : Oneshot) :
    c.pending.lookup id = some tx ↔
      id = idOf tx ∧ tx < c.oneshots.length ∧ c.oneshots.get tx = .empty := by
  constructor
  · intro hfound
    exact (Client.wellformed_of_run hrun).pending id tx hfound
  · rintro ⟨rfl, hlt, hempty⟩
    exact listed_of_run hrun tx hlt hempty

end keeps

/-! ## After the client -/

namespace YumFuture
variable {α : Type}

/-- The future was not resolved yet, and its receiver is one of those made. -/
def Receives (o : Oneshots) : YumFuture α → Prop
  | .waiting rx _ => rx < o.length
  | .waitingFn rx _ => rx < o.length
  | .complete => False
  | _ => True

end YumFuture

/-- The futures of a batch that were not resolved yet. -/
def YumBatchFuture.futures {α : Type} : YumBatchFuture α → List (YumFuture α)
  | .waiting futs => futs
  | .polling futs => futs.filterMap fun e => match e with
      | .pending f => some f
      | .done _ => none
  | .done => []

section drop
variable {C : Codec} {c c' : Client} {tr tr' : List (Op × List Registration)} {α : Type}

theorem Oneshots.length_foldl_dropSender (entries : List (Sigma fun _ : Nat => Oneshot))
    (o : Oneshots) : (entries.foldl (fun o entry => o.dropSender entry.2) o).length = o.length := by
  induction entries generalizing o with
  | nil => rfl
  | cons entry rest ih => rw [List.foldl_cons, ih, length_dropSender]

/-- Senders that go out of scope leave what was written. -/
theorem Oneshots.foldl_dropSender_written (entries : List (Sigma fun _ : Nat => Oneshot))
    {o : Oneshots} {tx : Oneshot} (h : o.get tx ≠ .empty) :
    (entries.foldl (fun o entry => o.dropSender entry.2) o).get tx = o.get tx := by
  induction entries generalizing o with
  | nil => rfl
  | cons entry rest ih =>
      have hkept : (o.dropSender entry.2).get tx = o.get tx := get_dropSender_of_ne_empty h
      rw [List.foldl_cons, ih (by rw [hkept]; exact h), hkept]

theorem Oneshots.foldl_dropSender_mem {entries : List (Sigma fun _ : Nat => Oneshot)}
    {o : Oneshots} {tx : Oneshot} (hmem : ∃ entry ∈ entries, entry.2 = tx) (hlt : tx < o.length)
    (hempty : o.get tx = .empty) :
    (entries.foldl (fun o entry => o.dropSender entry.2) o).get tx = .dropped := by
  induction entries generalizing o with
  | nil =>
      obtain ⟨_, hentry, _⟩ := hmem
      exact absurd hentry List.not_mem_nil
  | cons entry rest ih =>
      rw [List.foldl_cons]
      by_cases hfirst : tx = entry.2
      · subst hfirst
        have hdropped := get_dropSender_self hlt hempty
        rw [foldl_dropSender_written, hdropped]
        rw [hdropped]
        simp
      · obtain ⟨entry', hentry', rfl⟩ := hmem
        have hrest : entry' ∈ rest := (List.mem_cons.mp hentry').resolve_left fun heq =>
          hfirst (congrArg (·.2) heq)
        exact ih ⟨entry', hrest, rfl⟩ (by rwa [length_dropSender])
          ((get_dropSender_ne hfirst).trans hempty)

/-- What every receiver finds after the client went away. -/
theorem Client.drop_oneshots (h : Listed c.pending c.oneshots) {tx : Oneshot}
    (hlt : tx < c.oneshots.length) :
    c.drop.oneshots.get tx =
      match c.oneshots.get tx with
      | .empty => .dropped
      | slot => slot := by
  cases hslot : c.oneshots.get tx with
  | empty =>
      have hentry := AList.mem_lookup_iff.mp (h tx hlt hslot)
      exact Oneshots.foldl_dropSender_mem ⟨_, hentry, rfl⟩ hlt hslot
  | sent rv =>
      have hwritten : c.oneshots.get tx ≠ .empty := by simp [hslot]
      exact (Oneshots.foldl_dropSender_written _ hwritten).trans hslot
  | dropped =>
      have hwritten : c.oneshots.get tx ≠ .empty := by simp [hslot]
      exact (Oneshots.foldl_dropSender_written _ hwritten).trans hslot

theorem Client.Wellformed.drop (h : c.Wellformed) : c.drop.Wellformed where
  ids := by
    rw [show c.drop.oneshots.length = c.oneshots.length from
      Oneshots.length_foldl_dropSender _ _]
    exact h.ids
  pending := by
    intro id tx hfound
    simp [Client.drop] at hfound
  subscriptions := h.subscriptions

/-- A slot that was written stays as it is. -/
theorem written_step {op : Op} {o : List Registration} (hwell : c.Wellformed)
    (hstep : (history C).step c op = some (o, c')) {tx : Oneshot}
    (h : c.oneshots.get tx ≠ .empty) : c'.oneshots.get tx = c.oneshots.get tx := by
  refine history_keeps (P := fun _ o => o.get tx = c.oneshots.get tx)
    (Op.completes_of_forall (fun _ _ => trivial) op) ?_ ?_ hwell rfl hstep
  · intro t id rv _ _ hkept
    rw [Client.complete_written _ _ _ (by rw [hkept]; exact h), hkept]
  · intro t _ hkept
    rw [Client.register_written _ (by rw [hkept]; exact h), hkept]

theorem written_of_run (hwell : c.Wellformed) (hrun : (history C).Run c tr c') {tx : Oneshot}
    (h : c.oneshots.get tx ≠ .empty) : c'.oneshots.get tx = c.oneshots.get tx := by
  refine (hrun.invariant (I := fun _ t => t.Wellformed ∧ t.oneshots.get tx = c.oneshots.get tx)
    ⟨hwell, rfl⟩ ?_).2
  intro tr t t' op o _ ih hstep
  refine ⟨ih.1.step hstep, ?_⟩
  rw [written_step ih.1 hstep (by rw [ih.2]; exact h), ih.2]

/-- What a poll returns after the client went away, from what it would have returned before:
where it waited, the oneshot is canceled now. -/
def afterDrop : Poll α → Poll α
  | .ok .notReady => .error .canceled
  | r => r

theorem YumFuture.poll_after_drop {o o' : Oneshots} (f : YumFuture α) (h : f.Receives o)
    (hslots : ∀ tx, tx < o.length →
      o'.get tx = match o.get tx with
        | .empty => .dropped
        | slot => slot) :
    (f.poll o').1 = afterDrop (f.poll o).1 := by
  have hwaiting : ∀ rx (de : Value → Except Error α) keep, rx < o.length →
      (pollWaiting o' rx de keep).1 = afterDrop (pollWaiting o rx de keep).1 := by
    intro rx de keep hlt
    simp only [pollWaiting, Oneshots.poll, hslots rx hlt]
    cases o.get rx with
    | empty => rfl
    | dropped => rfl
    | sent rv => cases hde : rv.bind de <;> simp [hde, afterDrop]
  cases f with
  | waiting rx de => exact hwaiting rx de _ h
  | waitingFn rx de => exact hwaiting rx de _ h
  | now t => rfl
  | complete => exact absurd h id
  | error e => rfl

theorem afterDrop_ne_notReady (r : Poll α) : afterDrop r ≠ .ok .notReady := by
  rcases r with e | a
  · simp [afterDrop]
  · cases a <;> simp [afterDrop]

/-- Elements that are all ready, or one that fails. -/
theorem JoinAll.poll_ne_notReady {o : Oneshots} {js : JoinAll α}
    (h : ∀ f, .pending f ∈ js → (f.poll o).1 ≠ .ok .notReady) :
    (js.poll o).1 ≠ .ok .notReady := by
  rcases scan_cases o js with ⟨e, f, hfail, _, _⟩ | ⟨js', hok, hall⟩
  · simp [poll, hfail]
  · have hdone : ∃ ts : List α, js' = ts.map .done := by
      clear hok
      induction hall with
      | nil => exact ⟨[], rfl⟩
      | cons hscanned _ ih =>
          obtain ⟨ts, rfl⟩ := ih fun f hf => h f (List.mem_cons_of_mem _ hf)
          cases hscanned with
          | done t => exact ⟨t :: ts, rfl⟩
          | @ready f t result => exact ⟨t :: ts, rfl⟩
          | waits result => exact absurd result (h _ List.mem_cons_self)
    obtain ⟨ts, rfl⟩ := hdone
    simp [poll, hok, values_eq_some.mpr rfl]

/-- A batch is resolved at once when its futures are. -/
theorem YumBatchFuture.poll_ne_notReady {o : Oneshots} {b : YumBatchFuture α}
    (h : ∀ f ∈ b.futures, (f.poll o).1 ≠ .ok .notReady) :
    ∀ r b', b.poll o = some (r, b') → r ≠ .ok .notReady := by
  have hpolling : ∀ js : JoinAll α, (∀ f, .pending f ∈ js → (f.poll o).1 ≠ .ok .notReady) →
      (pollPolling o js).1 ≠ .ok .notReady := by
    intro js hjs
    have hpoll := JoinAll.poll_ne_notReady hjs
    unfold pollPolling
    split
    · simp
    · simp
    · rename_i heq
      rw [heq] at hpoll
      exact hpoll
  intro r b' hb
  cases b with
  | waiting futs =>
      obtain ⟨rfl, _⟩ := Prod.mk.inj (Option.some.inj hb)
      refine hpolling (joinAll futs) ?_
      intro f hf
      obtain ⟨f', hf', heq⟩ := List.mem_map.mp hf
      obtain rfl := Elem.pending.inj heq
      exact h f' hf'
  | polling js =>
      obtain ⟨rfl, _⟩ := Prod.mk.inj (Option.some.inj hb)
      refine hpolling js ?_
      intro f hf
      exact h f (List.mem_filterMap.mpr ⟨.pending f, hf, rfl⟩)
  | done => cases hb

/-- **After the client went away nothing waits.**  Whatever its threads still do, a future
returns what it would have returned before, and `Canceled` where it would have waited; a batch
does not wait either. -/
theorem resolved_after_drop (hrun : (history C).Run Client.new tr c)
    (hafter : (history C).Run c.drop tr' c') :
    (∀ f : YumFuture α, f.Receives c.oneshots →
      (f.poll c'.oneshots).1 = afterDrop (f.poll c.oneshots).1) ∧
    ∀ b : YumBatchFuture α, (∀ f ∈ b.futures, f.Receives c.oneshots) →
      ∀ r b', b.poll c'.oneshots = some (r, b') → r ≠ .ok .notReady := by
  have hlisted := listed_of_run hrun
  have hslots : ∀ tx, tx < c.oneshots.length → c'.oneshots.get tx =
      match c.oneshots.get tx with
      | .empty => .dropped
      | slot => slot := by
    intro tx hlt
    have hdropped := Client.drop_oneshots hlisted hlt
    rw [← hdropped]
    refine written_of_run (Client.wellformed_of_run hrun).drop hafter ?_
    rw [hdropped]
    cases c.oneshots.get tx <;> simp
  have hsingle : ∀ f : YumFuture α, f.Receives c.oneshots →
      (f.poll c'.oneshots).1 = afterDrop (f.poll c.oneshots).1 := fun f hf =>
    f.poll_after_drop hf hslots
  refine ⟨hsingle, ?_⟩
  intro b hb
  refine YumBatchFuture.poll_ne_notReady ?_
  intro f hf
  rw [hsingle f (hb f hf)]
  exact afterDrop_ne_notReady _

end drop

/-- A client with two requests, of which the first is answered. -/
def Client.halfAnswered : Client :=
  let c := (Client.new.request updateCodec "eth_blockNumber" [] deString ⟨0, true⟩).2
  let c := (c.request updateCodec "eth_gasPrice" [] deString ⟨0, true⟩).2
  c.readFrame [.success 1 (.string "0x1")]

theorem Client.halfAnswered_run : ∃ tr,
    (history updateCodec).Run Client.new tr halfAnswered := by
  have hexec : (history updateCodec).exec Client.new [.request "eth_blockNumber" [] 0,
      .request "eth_gasPrice" [] 0, .frame [.success 1 (.string "0x1")]] = some (_, halfAnswered) :=
    rfl
  exact ⟨_, Mealy.run_of_exec hexec⟩

/-- The client goes away, and the answer to the second request comes too late. -/
theorem halfAnswered_after_drop : ∃ tr c',
    (history Client.updateCodec).Run Client.halfAnswered.drop tr c' ∧
    ((YumFuture.waiting 0 deString).poll c'.oneshots).1 = .ok (.ready "0x1") ∧
    ((YumFuture.waiting 1 deString).poll c'.oneshots).1 = .error .canceled := by
  obtain ⟨tr, hrun⟩ := Client.halfAnswered_run
  have hafter : (history Client.updateCodec).Run Client.halfAnswered.drop
      [(.frame [.success 2 (.string "0x2")], [])] _ := Mealy.Run.single rfl
  have hresolved := (resolved_after_drop (α := String) hrun hafter).1
  exact ⟨_, _, hafter, hresolved (.waiting 0 deString) Nat.zero_lt_two,
    hresolved (.waiting 1 deString) Nat.one_lt_two⟩

/-- Between the answer and the drop the table has the second request's sender alone. -/
theorem halfAnswered_pending : Client.halfAnswered.pending.lookup 2 = some 1 ∧
    Client.halfAnswered.pending.lookup 1 ≠ some 0 := by
  obtain ⟨_, hrun⟩ := Client.halfAnswered_run
  refine ⟨(pending_iff_open hrun 2 1).mpr ⟨rfl, by decide, rfl⟩, ?_⟩
  intro hfound
  have hopen := ((pending_iff_open hrun 1 0).mp hfound).2.2
  cases hopen

end Ethereyum
