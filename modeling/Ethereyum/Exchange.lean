/-
# `Exchange` — a caller is told what the server answered to its own call

The tables correlate by numbers, and the server answers by numbers.  That a caller gets the
answer to what *it* asked takes both ends:

| | |
| :-- | :-- |
| the client | the call of the oneshot `tx` went out under the id `idOf tx` |
| the server | every response answers a call that went out before, under that call's id |
| together | what is sent on the oneshot `tx` is an answer to the call of `tx` |

What the server may answer is a relation between calls and results, and nothing is asked of
the order of the answers, of their number, or of the frames they come in.  The last line holds
while the counter makes no full turn: after that two calls have one id.
-/
import Ethereyum.Batch
import Ethereyum.Lib.Slots
import Ethereyum.Teardown

namespace Ethereyum

/-! ## Calls and their answers -/

/-- The calls of a message. -/
def Request.calls : Request → List MethodCall
  | .single call => [call]
  | .batch calls => calls

/-- The calls that went out so far. -/
def Client.calls (c : Client) : List MethodCall := c.wire.flatMap Request.calls

/-- What a server may answer to a call. -/
abbrev Server := MethodCall → Except Error Value → Prop

/-- The result `rv` under the id `id` answers one of the calls. -/
def Answers (A : Server) (calls : List MethodCall) (id : Nat) (rv : Except Error Value) : Prop :=
  ∃ call ∈ calls, call.id = .num id ∧ A call rv

/-- Every response answers a call that went out before.  In an HTTP body whatever there is
counts as an answer. -/
def Honest (A : Server) (c : Client) : Op → Prop
  | .frame rs => ∀ r ∈ rs, r.isSubscription = false →
      Answers A c.calls r.intoResponse.1 r.intoResponse.2
  | .body rs => ∀ r ∈ rs, Answers A c.calls r.intoResponse.1 r.intoResponse.2
  | _ => True

/-- What was sent on a oneshot answers its own call, or is the timeout. -/
def Told (A : Server) (calls : List MethodCall) (o : Oneshots) : Prop :=
  ∀ tx rv, o.get tx = .sent rv →
    rv = .error Client.timedOut ∨ ∃ call, calls[tx]? = some call ∧ A call rv

/-- A client that talks to the server `A`. -/
structure Exchanged (A : Server) (c : Client) : Prop where
  wellformed : c.Wellformed
  listed : Listed c.pending c.oneshots
  length : c.calls.length = c.oneshots.length
  ids : ∀ (tx : Oneshot) (call : MethodCall), c.calls[tx]? = some call → call.id = .num (idOf tx)
  told : c.oneshots.length ≤ word → Told A c.calls c.oneshots
  undropped : c.oneshots.length ≤ word → ∀ tx, c.oneshots.get tx ≠ .dropped

/-! ## What goes out -/

namespace Client
variable {C : Codec} {c c' : Client}

theorem calls_push (c : Client) (msg : Request) : (c.push msg).calls = c.calls ++ msg.calls := by
  simp [calls, push]

theorem request_calls {α : Type} (C : Codec) (c : Client) (method : String)
    (params : List Value) (de : Value → Except Error α) (env : Env) :
    (c.request C method params de env).2.calls =
      c.calls ++ [buildRequest c.ids method params] := by
  rw [request_client, calls_push]
  simp [calls, Request.calls, recordTs]

theorem Wellformed.ids_lt (h : c.Wellformed) : c.ids < word := by
  rw [h.ids]
  exact Nat.mod_lt _ (Nat.two_pow_pos 64)

theorem batchRequest_calls {α : Type} (h : c.Wellformed) (requests : List (BatchItem α))
    (sent : Bool) : (c.batchRequest requests sent).2.calls =
      c.calls ++ requests.mapIdx fun i item =>
        buildRequest (c.batchId i) item.method item.params := by
  rw [batchRequest_client, calls_push, registerBatch_calls requests h.ids_lt]
  simp only [calls, iterate_register_wire]
  rfl

theorem complete_wire (c : Client) (id : Nat) (rv : Except Error Value) :
    (c.complete id rv).2.wire = c.wire := by
  obtain ⟨_, _, h, _⟩ := complete_frame c id rv
  rw [h]

theorem readOne_wire (c : Client) (r : RpcResponse) : (c.readOne r).wire = c.wire := by
  cases r with
  | subscription id v =>
      obtain ⟨_, h, _⟩ := notify_frame c id v
      rw [readOne, h]
  | success id v => exact complete_wire c id _
  | failure id e => exact complete_wire c id _

/-- An operation adds the calls whose oneshots it makes, each under the id that goes with its
oneshot, and no others. -/
theorem calls_step {op : Op} {o : List Registration} (h : c.Wellformed)
    (hstep : (history C).step c op = some (o, c')) :
    ∃ more : List MethodCall, c'.calls = c.calls ++ more ∧
      c'.oneshots.length = c.oneshots.length + more.length ∧
      ∀ (i : Nat) (call : MethodCall), more[i]? = some call →
        call.id = .num (idOf (c.oneshots.length + i)) := by
  -- the other operations send nothing
  have hquiet : c'.wire = c.wire → c'.oneshots.length = c.oneshots.length →
      ∃ more : List MethodCall, c'.calls = c.calls ++ more ∧
        c'.oneshots.length = c.oneshots.length + more.length ∧
        ∀ (i : Nat) (call : MethodCall), more[i]? = some call →
          call.id = .num (idOf (c.oneshots.length + i)) := by
    intro hwire hlen
    refine ⟨[], ?_, hlen, ?_⟩
    · rw [calls, hwire, List.append_nil]
      rfl
    · intro i call hcall
      simp at hcall
  cases op with
  | request method params now =>
      cases hstep
      refine ⟨_, request_calls C c method params _ _, ?_, ?_⟩
      · rw [request_oneshots_length]
        rfl
      · intro i call hcall
        obtain ⟨rfl, rfl⟩ : i = 0 ∧ buildRequest c.ids method params = call := by
          cases i with
          | zero => exact ⟨rfl, Option.some.inj hcall⟩
          | succ i => simp at hcall
        exact congrArg Id.num h.ids
  | batchRequest requests now =>
      cases hstep
      refine ⟨_, batchRequest_calls h requests true, ?_, ?_⟩
      · rw [batchRequest_client, List.length_mapIdx]
        exact iterate_register_oneshots_length requests.length c
      · intro i call hcall
        rw [List.getElem?_mapIdx] at hcall
        obtain ⟨item, _, rfl⟩ := Option.map_eq_some_iff.mp hcall
        exact congrArg Id.num (h.batchId_eq i)
  | frame rs =>
      cases hstep
      exact hquiet (foldl_keeps wire readOne_wire rs c) (readFrame_oneshots_length c rs)
  | body rs =>
      cases hstep
      exact hquiet (foldl_keeps wire (fun c r => complete_wire c _ _) rs c)
        (httpBody_oneshots_length c rs)
  | sweep now order =>
      simp only [history] at hstep
      split at hstep
      · cases hstep
        exact hquiet (foldl_timeOut_keeps wire complete_wire _ _)
          (sweep_oneshots_length c now order)
      · cases hstep
  | channel =>
      cases hstep
      exact hquiet rfl rfl
  | addSubscription id tx =>
      simp only [history] at hstep
      split at hstep
      · cases hstep
        obtain ⟨_, hframe, _⟩ := addSubscription_frame c id tx
        exact hquiet (by rw [hframe]) (by rw [hframe])
      · cases hstep

end Client

section step
variable {A : Server} {C : Codec} {c c' : Client} {op : Op} {o : List Registration}

/-- A result under an id that is pending goes to the oneshot of the call it answers. -/
theorem Told.complete {calls : List MethodCall} (h : Told A calls c.oneshots)
    (hwell : c.Wellformed) (hcalls : calls.length ≤ word) (hlen : c.oneshots.length ≤ word)
    (hids : ∀ (tx : Oneshot) (call : MethodCall), calls[tx]? = some call →
      call.id = .num (idOf tx)) {id : Nat} {rv : Except Error Value}
    (hrv : rv = .error Client.timedOut ∨ Answers A calls id rv) :
    Told A calls (c.complete id rv).2.oneshots := by
  intro tx rv' hsent
  by_cases hfound : c.pending.lookup id = some tx
  · obtain ⟨hid, hlt, hempty⟩ := hwell.pending id tx hfound
    rw [Client.complete_of_some rv hfound] at hsent
    obtain rfl : rv = rv' :=
      Slot.sent.inj ((Oneshots.get_send_self rv hlt hempty).symm.trans hsent)
    refine hrv.imp_right ?_
    rintro ⟨call, hmem, hcall, hanswer⟩
    obtain ⟨k, hk⟩ := List.mem_iff_getElem?.mp hmem
    have hidk : idOf k = id := Id.num.inj ((hids k call hk).symm.trans hcall)
    have hk' : k < calls.length := (List.getElem?_eq_some_iff.mp hk).1
    -- less than a turn of the counter apart, one id is one oneshot
    obtain rfl : k = tx := by
      rcases Nat.lt_trichotomy k tx with hlt' | heq | hlt'
      · exact absurd (hid.symm.trans hidk.symm)
          (idOf_ne hlt' (Nat.lt_add_left _ (Nat.lt_of_lt_of_le hlt hlen)))
      · exact heq
      · exact absurd (hidk.trans hid)
          (idOf_ne hlt' (Nat.lt_add_left _ (Nat.lt_of_lt_of_le hk' hcalls)))
    exact ⟨call, hk, hanswer⟩
  · rw [Client.complete_oneshots c id rv hfound] at hsent
    exact h tx rv' hsent

/-- A registration sends nothing. -/
theorem Told.register {calls : List MethodCall} (h : Told A calls c.oneshots)
    (hwell : c.Wellformed) : Told A calls c.register.oneshots := by
  intro tx rv hsent
  refine h tx rv ?_
  by_cases hfound : c.pending.lookup c.ids = some tx
  · have hdropped := Client.register_replaced hfound (hwell.pending _ _ hfound).2
    exact absurd (hdropped.symm.trans hsent) (by simp)
  · rwa [Client.register_oneshots c hfound] at hsent

theorem Told.mono {calls calls' : List MethodCall} {o : Oneshots} (h : Told A calls o)
    (hpre : calls <+: calls') : Told A calls' o := by
  intro tx rv hsent
  refine (h tx rv hsent).imp_right ?_
  rintro ⟨call, hcall, hanswer⟩
  obtain ⟨rest, rfl⟩ := hpre
  exact ⟨call, (List.getElem?_append_left (List.getElem?_eq_some_iff.mp hcall).1).trans hcall,
    hanswer⟩

/-- Before the counter has made a full turn no sender is replaced. -/
theorem undropped_register (h : ∀ tx, c.oneshots.get tx ≠ .dropped) (hwell : c.Wellformed)
    (hlen : c.oneshots.length < word) : ∀ tx, c.register.oneshots.get tx ≠ .dropped := by
  intro tx
  rw [Client.register_oneshots]
  · exact h tx
  · intro hfound
    obtain ⟨hid, hlt, _⟩ := hwell.pending _ _ hfound
    exact idOf_ne hlt (by omega) (hwell.ids.symm.trans hid)

theorem undropped_complete (h : ∀ tx, c.oneshots.get tx ≠ .dropped) (hwell : c.Wellformed)
    (id : Nat) (rv : Except Error Value) :
    ∀ tx, (c.complete id rv).2.oneshots.get tx ≠ .dropped := by
  intro tx
  by_cases hfound : c.pending.lookup id = some tx
  · obtain ⟨_, hlt, hempty⟩ := hwell.pending id tx hfound
    rw [Client.complete_of_some rv hfound]
    rw [show Oneshots.get _ tx = .sent rv from Oneshots.get_send_self rv hlt hempty]
    simp
  · rw [Client.complete_oneshots c id rv hfound]
    exact h tx

/-- Every operation of a client that talks to an honest server keeps the exchange. -/
theorem Exchanged.step (h : Exchanged A c) (hhonest : Honest A c op)
    (hstep : (history C).step c op = some (o, c')) : Exchanged A c' := by
  obtain ⟨more, hcalls, hlen, hmore⟩ := Client.calls_step h.wellformed hstep
  have hlength : c'.calls.length = c'.oneshots.length := by
    rw [hcalls, List.length_append, h.length, hlen]
  have hids : ∀ (tx : Oneshot) (call : MethodCall), c'.calls[tx]? = some call →
      call.id = .num (idOf tx) := by
    intro tx call hcall
    rw [hcalls] at hcall
    rcases Nat.lt_or_ge tx c.calls.length with hlt | hge
    · rw [List.getElem?_append_left hlt] at hcall
      exact h.ids tx call hcall
    · rw [List.getElem?_append_right hge] at hcall
      have hid := hmore _ _ hcall
      rwa [← h.length, Nat.add_sub_cancel' hge] at hid
  have hcompletes : op.Completes fun id rv =>
      rv = .error Client.timedOut ∨ Answers A c.calls id rv := by
    cases op with
    | frame rs => exact fun r hr hsub => Or.inr (hhonest r hr hsub)
    | body rs => exact fun r hr => Or.inr (hhonest r hr)
    | sweep now order => exact fun _ _ => Or.inl rfl
    | _ => trivial
  have hmono := history_oneshots_mono hstep
  refine ⟨h.wellformed.step hstep, h.listed.step h.wellformed hstep, hlength, hids, ?_, ?_⟩
  · intro hword
    have hcalls' : c.calls.length ≤ word := by
      rw [h.length]
      exact Nat.le_trans hmono hword
    have htold : c'.oneshots.length ≤ word → Told A c.calls c'.oneshots := by
      refine history_keeps (P := fun _ o => o.length ≤ word → Told A c.calls o) hcompletes ?_ ?_
        h.wellformed h.told hstep
      · intro t id rv hrv hwell ht hlen'
        rw [Client.complete_oneshots_length] at hlen'
        exact (ht hlen').complete hwell hcalls' hlen' h.ids hrv
      · intro t hwell ht hlen'
        rw [Client.register_oneshots_length] at hlen'
        exact (ht (Nat.le_of_succ_le hlen')).register hwell
    exact (htold hword).mono ⟨more, hcalls.symm⟩
  · refine history_keeps (P := fun _ o => o.length ≤ word → ∀ tx, o.get tx ≠ .dropped)
      hcompletes ?_ ?_ h.wellformed h.undropped hstep
    · intro t id rv _ hwell ht hlen'
      rw [Client.complete_oneshots_length] at hlen'
      exact undropped_complete (ht hlen') hwell id rv
    · intro t hwell ht hlen'
      rw [Client.register_oneshots_length] at hlen'
      exact undropped_register (ht (Nat.le_of_succ_le hlen')) hwell hlen'

theorem exchanged_new (A : Server) : Exchanged A Client.new where
  wellformed := Client.wellformed_new
  listed tx hlt := absurd hlt (Nat.not_lt_zero tx)
  length := rfl
  ids tx call hcall := by simp [Client.calls, Client.new] at hcall
  told _ tx rv hsent := by simp [Client.new, Oneshots.get] at hsent
  undropped _ tx := by simp [Client.new, Oneshots.get]

theorem exchanged_of_run {tr : List (Op × List Registration)}
    (hrun : (history C).Run Client.new tr c)
    (hhonest : (history C).Along (Honest A) Client.new tr) : Exchanged A c :=
  hrun.invariant_along hhonest (I := fun _ c => Exchanged A c) (exchanged_new A)
    fun _ hC h hstep => h.step hC hstep

end step

/-! ## While a call is under way -/

/-- The operation dispatches a response under the id `id`. -/
def Op.Answers (id : Nat) : Op → Prop
  | .frame rs => ∃ r ∈ rs, r.requestId = some id
  | .body rs => ∃ r ∈ rs, r.intoResponse.1 = id
  | _ => False

/-- The client `c`, some operations after it was `c₁`. -/
structure Underway (A : Server) (c₁ : Client) (ops : List Op) (c : Client) : Prop where
  exchanged : Exchanged A c
  length : c₁.oneshots.length ≤ c.oneshots.length
  calls : c₁.calls <+: c.calls
  heard : ∀ tx, tx < c₁.oneshots.length → ∀ op ∈ ops, op.Answers (idOf tx) →
    c.oneshots.get tx ≠ .empty

section underway
variable {A : Server} {C : Codec} {c₁ c c' : Client} {op : Op} {o : List Registration}
  {ops : List Op}

/-- A response under an id takes the entry out, whatever the loop does besides. -/
theorem Op.Answers.pending {id : Nat} (h : op.Answers id)
    (hstep : (history C).step c op = some (o, c')) : c'.pending.lookup id = none := by
  have hloop : ∀ (turn : Client → RpcResponse → Client),
      (∀ c r tx, (turn c r).pending.lookup id = some tx → c.pending.lookup id = some tx) →
      ∀ (rs : List RpcResponse) (r : RpcResponse), r ∈ rs →
      (∀ c, (turn c r).pending.lookup id = none) →
      ∀ c, (rs.foldl turn c).pending.lookup id = none := by
    intro turn hturn rs r hr hgone c
    obtain ⟨before, after, rfl⟩ := List.append_of_mem hr
    rw [List.foldl_append, List.foldl_cons]
    refine List.foldlRecOn (motive := fun c => c.pending.lookup id = none) after turn
      (hgone _) ?_
    intro c hc r' _
    cases hfound : (turn c r').pending.lookup id with
    | none => rfl
    | some tx => exact absurd (hc.symm.trans (hturn c r' tx hfound)) (by simp)
  cases op with
  | frame rs =>
      obtain ⟨r, hr, hid⟩ := h
      cases hstep
      exact hloop Client.readOne (fun c _ _ => Client.readOne_pending c) rs r hr
        (fun c => Client.readOne_pending_answered c hid) c
  | body rs =>
      obtain ⟨r, hr, rfl⟩ := h
      cases hstep
      refine hloop Client.httpOne (fun c _ _ => Client.httpOne_pending c) rs r hr ?_ c
      intro c
      rw [Client.httpOne, Client.complete_pending, if_pos rfl]
  | _ => exact False.elim h

theorem Underway.start (h : Exchanged A c) : Underway A c [] c where
  exchanged := h
  length := le_rfl
  calls := List.prefix_rfl
  heard _ _ _ hop := absurd hop List.not_mem_nil

theorem Underway.step (h : Underway A c₁ ops c) (hhonest : Honest A c op)
    (hstep : (history C).step c op = some (o, c')) : Underway A c₁ (ops ++ [op]) c' := by
  have hexchanged := h.exchanged.step hhonest hstep
  have hlen := Nat.le_trans h.length (history_oneshots_mono hstep)
  obtain ⟨more, hcalls, _, _⟩ := Client.calls_step h.exchanged.wellformed hstep
  refine ⟨hexchanged, hlen, h.calls.trans ⟨more, hcalls.symm⟩, ?_⟩
  intro tx hlt op' hop' hanswers
  rcases List.mem_append.mp hop' with hold | hnew
  · have hwritten := h.heard tx hlt op' hold hanswers
    rw [written_step h.exchanged.wellformed hstep hwritten]
    exact hwritten
  · obtain rfl := List.mem_singleton.mp hnew
    intro hempty
    have hfound := hexchanged.listed tx (Nat.lt_of_lt_of_le hlt hlen) hempty
    exact absurd ((hanswers.pending hstep).symm.trans hfound) (by simp)

end underway

/-! ## What a poll tells -/

/-- The server answered the call with a result that is read as `r`. -/
def Own {α : Type} (A : Server) (call : MethodCall) (de : Value → Except Error α)
    (r : Except Error α) : Prop :=
  ∃ rv, A call rv ∧ rv.bind de = r

/-- What a poll of the future of `call` tells, after the operations `ops`. -/
structure Tells {α : Type} (A : Server) (call : MethodCall) (de : Value → Except Error α)
    (ops : List Op) (r : Poll α) : Prop where
  ready : ∀ t, r = .ok (.ready t) → Own A call de (.ok t)
  error : ∀ e, r = .error e → e = Client.timedOut ∨ Own A call de (.error e)
  notReady : r = .ok .notReady → ∀ op ∈ ops, ∀ id, call.id = .num id → ¬ op.Answers id

section polls
variable {α : Type} {A : Server} {C : Codec} {c₀ c₁ c : Client} {ops : List Op}

theorem Underway.tells (h : Underway A c₁ ops c) (hturn : c.oneshots.length ≤ word)
    {tx : Oneshot} {call : MethodCall} (hcall : c₁.calls[tx]? = some call)
    (hlt : tx < c₁.oneshots.length) (de : Value → Except Error α) (keep : YumFuture α) :
    Tells A call de ops (YumFuture.pollWaiting c.oneshots tx de keep).1 := by
  have hlater : c.calls[tx]? = some call := by
    obtain ⟨rest, hrest⟩ := h.calls
    rw [← hrest, List.getElem?_append_left (List.getElem?_eq_some_iff.mp hcall).1, hcall]
  have hown : ∀ rv, c.oneshots.get tx = .sent rv →
      rv = .error Client.timedOut ∨ A call rv := by
    intro rv hsent
    refine (h.exchanged.told hturn tx rv hsent).imp_right ?_
    rintro ⟨call', hcall', hanswer⟩
    obtain rfl := Option.some.inj (hcall'.symm.trans hlater)
    exact hanswer
  unfold YumFuture.pollWaiting Oneshots.poll
  cases hslot : c.oneshots.get tx with
  | empty =>
      refine ⟨fun t ht => ?_, fun e he => ?_, fun _ op hop id hid hanswers => ?_⟩
      · cases ht
      · cases he
      · have hidOf := Id.num.inj ((h.exchanged.ids tx call hlater).symm.trans hid)
        exact h.heard tx hlt op hop (hidOf ▸ hanswers) hslot
  | dropped => exact absurd hslot (h.exchanged.undropped hturn tx)
  | sent rv =>
      cases hde : rv.bind de with
      | ok t =>
          refine ⟨fun t' ht => ?_, fun e he => ?_, fun hr => ?_⟩
          · simp only [hde, Except.ok.injEq, Async.ready.injEq] at ht
            subst ht
            rcases hown rv hslot with rfl | hanswer
            · cases hde
            · exact ⟨rv, hanswer, hde⟩
          · simp [hde] at he
          · simp [hde] at hr
      | error e =>
          refine ⟨fun t ht => ?_, fun e' he => ?_, fun hr => ?_⟩
          · simp [hde] at ht
          · simp only [hde, Except.error.injEq] at he
            subst he
            rcases hown rv hslot with rfl | hanswer
            · cases hde
              exact Or.inl rfl
            · exact Or.inr ⟨rv, hanswer, hde⟩
          · simp [hde] at hr

/-- **A request is told what the server answered to it.**  While the counter makes no full turn,
and whatever else the client does in between, the future of a request becomes ready only with an
answer to its own call, fails only with such an answer or the timeout, is never canceled, and
waits only as long as no response came under the id of its call. -/
theorem own_answer {past tr : List (Op × List Registration)} {method : String}
    {params : List Value} {de : Value → Except Error α} {now : Int}
    (hpast : (history C).Run Client.new past c₀)
    (hpast' : (history C).Along (Honest A) Client.new past)
    (hrun : (history C).Run (c₀.request C method params de ⟨now, true⟩).2 tr c)
    (hrun' : (history C).Along (Honest A) (c₀.request C method params de ⟨now, true⟩).2 tr)
    (hturn : c.oneshots.length ≤ word) :
    Tells A (buildRequest c₀.ids method params) de (tr.map Prod.fst)
      (((c₀.request C method params de ⟨now, true⟩).1).poll c.oneshots).1 := by
  have hexchanged₀ := exchanged_of_run hpast hpast'
  have hexchanged : Exchanged A (c₀.request C method params de ⟨now, true⟩).2 := by
    have hquiet : Honest A c₀ (.request method params now) := trivial
    have hsent := hexchanged₀.step (C := C) hquiet rfl
    rw [Client.request_client] at hsent ⊢
    exact hsent
  have hunderway :
      Underway A (c₀.request C method params de ⟨now, true⟩).2 (tr.map Prod.fst) c := by
    refine hrun.invariant_along hrun'
      (I := fun tr c => Underway A _ (tr.map Prod.fst) c) (Underway.start hexchanged) ?_
    intro tr t t' op o _ hC h hstep
    rw [List.map_append]
    exact h.step hC hstep
  have hcall : (c₀.request C method params de ⟨now, true⟩).2.calls[c₀.oneshots.length]? =
      some (buildRequest c₀.ids method params) := by
    rw [Client.request_calls, ← hexchanged₀.length, List.getElem?_concat_length]
  refine hunderway.tells hturn hcall ?_ de _
  rw [Client.request_oneshots_length]
  exact Nat.lt_succ_self _

end polls

/-- A server that knows the block number and the gas price. -/
def quotes : Server := fun call rv =>
  call.method = "eth_blockNumber" ∧ rv = .ok (.string "0x1") ∨
  call.method = "eth_gasPrice" ∧ rv = .ok (.string "0x2")

/-- A client that asked for the block number. -/
def Client.asked : Client :=
  (Client.new.request updateCodec "eth_blockNumber" [] Except.ok ⟨0, true⟩).2

/-- It asks for the gas price, and the two answers come in one frame, the second first. -/
theorem gasPrice_answered : ∃ tr c,
    (history Client.updateCodec).Run
      (Client.asked.request Client.updateCodec "eth_gasPrice" [] deString ⟨0, true⟩).2 tr c ∧
    Tells quotes (buildRequest 2 "eth_gasPrice" []) deString (tr.map Prod.fst)
      (((Client.asked.request Client.updateCodec "eth_gasPrice" [] deString
        ⟨0, true⟩).1).poll c.oneshots).1 ∧
    (((Client.asked.request Client.updateCodec "eth_gasPrice" [] deString
      ⟨0, true⟩).1).poll c.oneshots).1 = .ok (.ready "0x2") := by
  have hpast : (history Client.updateCodec).Run Client.new
      [(.request "eth_blockNumber" [] 0, [⟨1, 0, 0⟩])] Client.asked := Mealy.Run.single rfl
  have hrun : (history Client.updateCodec).Run
      (Client.asked.request Client.updateCodec "eth_gasPrice" [] deString ⟨0, true⟩).2
      [(.frame [.success 2 (.string "0x2"), .success 1 (.string "0x1")], [])] _ :=
    Mealy.Run.single rfl
  refine ⟨_, _, hrun, own_answer hpast (Mealy.along_single trivial) hrun ?_ (by decide), rfl⟩
  refine Mealy.along_single ?_
  intro r hr _
  rcases List.mem_cons.mp hr with rfl | hr
  · exact ⟨buildRequest 2 "eth_gasPrice" [], List.mem_cons_of_mem _ List.mem_cons_self, rfl,
      Or.inr ⟨rfl, rfl⟩⟩
  · obtain rfl := List.mem_singleton.mp hr
    exact ⟨buildRequest 1 "eth_blockNumber" [], List.mem_cons_self, rfl, Or.inl ⟨rfl, rfl⟩⟩

/-! ## Batches -/

/-- A position of a batch: the oneshot, the call that goes with it, and the decoder. -/
structure Seat (α : Type) where
  tx : Oneshot
  call : MethodCall
  de : Value → Except Error α

/-- The positions of a batch sent from `c`. -/
def Client.seats {α : Type} (c : Client) (requests : List (BatchItem α)) : List (Seat α) :=
  requests.mapIdx fun i item =>
    ⟨c.oneshots.length + i, buildRequest (c.batchId i) item.method item.params, item.de⟩

/-- What a poll of a batch tells, after the operations `ops`. -/
structure TellsAll {α : Type} (A : Server) (seats : List (Seat α)) (ops : List Op)
    (r : Poll (List α)) : Prop where
  ready : ∀ ts, r = .ok (.ready ts) → List.Forall₂ (fun s t => Own A s.call s.de (.ok t)) seats ts
  error : ∀ e, r = .error e → ∃ s ∈ seats, e = Client.timedOut ∨ Own A s.call s.de (.error e)
  notReady : r = .ok .notReady →
    ∃ s ∈ seats, ∀ op ∈ ops, ∀ id, s.call.id = .num id → ¬ op.Answers id

/-- What a position has become: it waits still, or it holds an answer to its own call. -/
def Seat.Holds {α : Type} (A : Server) (s : Seat α) : Elem α → Prop
  | .pending f => f = .waitingFn s.tx s.de
  | .done t => Own A s.call s.de (.ok t)

/-- The future of a batch with these positions, as long as it is not resolved. -/
def YumBatchFuture.Seated {α : Type} (A : Server) (seats : List (Seat α)) :
    YumBatchFuture α → Prop
  | .waiting futs => List.Forall₂ (Seat.Holds A) seats (joinAll futs)
  | .polling js => List.Forall₂ (Seat.Holds A) seats js
  | .done => True

section batches
variable {α : Type} {A : Server} {C : Codec} {c₀ c₁ c : Client} {ops : List Op}
  {seats : List (Seat α)} {js js' : JoinAll α}

/-- The positions are those of calls that went out by then. -/
def SentOut (c₁ : Client) (seats : List (Seat α)) : Prop :=
  ∀ s ∈ seats, c₁.calls[s.tx]? = some s.call ∧ s.tx < c₁.oneshots.length

theorem Underway.tells_seat (h : Underway A c₁ ops c) (hturn : c.oneshots.length ≤ word)
    (hsent : SentOut c₁ seats) {s : Seat α} (hs : s ∈ seats) {f : YumFuture α}
    (hf : s.Holds A (.pending f)) : Tells A s.call s.de ops (f.poll c.oneshots).1 := by
  obtain rfl := hf
  obtain ⟨hcall, hlt⟩ := hsent s hs
  exact h.tells hturn hcall hlt s.de _

/-- A scan leaves every position with what belongs to it. -/
theorem Underway.scanned (h : Underway A c₁ ops c) (hturn : c.oneshots.length ≤ word)
    (hsent : SentOut c₁ seats) (hholds : List.Forall₂ (Seat.Holds A) seats js)
    (hscan : List.Forall₂ (JoinAll.Scanned c.oneshots) js js') :
    List.Forall₂ (Seat.Holds A) seats js' ∧
      ((∃ f, .pending f ∈ js') →
        ∃ s ∈ seats, ∀ op ∈ ops, ∀ id, s.call.id = .num id → ¬ op.Answers id) := by
  induction hholds generalizing js' with
  | nil =>
      cases hscan
      exact ⟨.nil, by simp⟩
  | @cons s e seats js hhold hrest ih =>
      cases hscan with
      | @cons _ e' _ js' hfirst hscan =>
          obtain ⟨hrest', hwaits⟩ :=
            ih (fun s' hs' => hsent s' (List.mem_cons_of_mem _ hs')) hscan
          have hmem : s ∈ s :: seats := List.mem_cons_self
          have hlift : (∃ f, .pending f ∈ js') → ∃ s' ∈ s :: seats, ∀ op ∈ ops, ∀ id,
              s'.call.id = .num id → ¬ op.Answers id := by
            intro hpending
            obtain ⟨s', hs', hun⟩ := hwaits hpending
            exact ⟨s', List.mem_cons_of_mem _ hs', hun⟩
          cases hfirst with
          | done t =>
              refine ⟨.cons hhold hrest', ?_⟩
              rintro ⟨f, hf⟩
              exact hlift ⟨f, (List.mem_cons.mp hf).resolve_left (by simp)⟩
          | @ready f t result =>
              refine ⟨.cons ((h.tells_seat hturn hsent hmem hhold).ready t result) hrest', ?_⟩
              rintro ⟨f', hf'⟩
              exact hlift ⟨f', (List.mem_cons.mp hf').resolve_left (by simp)⟩
          | @waits f result =>
              have htells := h.tells_seat hturn hsent hmem hhold
              refine ⟨.cons ?_ hrest', fun _ => ⟨s, hmem, htells.notReady result⟩⟩
              -- a future that waits is kept as it is
              obtain rfl : f = .waitingFn s.tx s.de := hhold
              have hkept := result
              simp only [YumFuture.poll, YumFuture.pollWaiting] at hkept ⊢
              split at hkept
              · cases hkept
              · rfl
              · split at hkept <;> cases hkept

theorem Underway.pollPolling (h : Underway A c₁ ops c) (hturn : c.oneshots.length ≤ word)
    (hsent : SentOut c₁ seats) (hholds : List.Forall₂ (Seat.Holds A) seats js) :
    TellsAll A seats ops (YumBatchFuture.pollPolling c.oneshots js).1 ∧
      (YumBatchFuture.pollPolling c.oneshots js).2.Seated A seats := by
  rcases JoinAll.scan_cases c.oneshots js with ⟨e, f, hfail, hmem, hpoll⟩ | ⟨js', hok, hscan⟩
  · -- one of the futures failed
    have hresult : YumBatchFuture.pollPolling c.oneshots js = (.error e, .done) := by
      simp [YumBatchFuture.pollPolling, JoinAll.poll, hfail]
    rw [hresult]
    refine ⟨⟨fun ts hts => ?_, fun e' he => ?_, fun hr => ?_⟩, trivial⟩
    · cases hts
    · cases he
      obtain ⟨s, hs, hhold⟩ := Slots.exists_left hholds hmem
      exact ⟨s, hs, (h.tells_seat hturn hsent hs hhold).error e hpoll⟩
    · cases hr
  · obtain ⟨hholds', hwaits⟩ := h.scanned hturn hsent hholds hscan
    cases hvalues : js'.values with
    | some ts =>
        have hresult : YumBatchFuture.pollPolling c.oneshots js = (.ok (.ready ts), .done) := by
          simp [YumBatchFuture.pollPolling, JoinAll.poll, hok, hvalues]
        rw [hresult]
        refine ⟨⟨fun ts' hts => ?_, fun e he => ?_, fun hr => ?_⟩, trivial⟩
        · cases hts
          rw [JoinAll.values_eq_some.mp hvalues, List.forall₂_map_right_iff] at hholds'
          exact hholds'
        · cases he
        · cases hr
    | none =>
        have hresult : YumBatchFuture.pollPolling c.oneshots js =
            (.ok .notReady, .polling js') := by
          simp [YumBatchFuture.pollPolling, JoinAll.poll, hok, hvalues]
        rw [hresult]
        refine ⟨⟨fun ts hts => ?_, fun e he => ?_, fun _ => hwaits ?_⟩, hholds'⟩
        · cases hts
        · cases he
        · exact JoinAll.exists_pending hvalues

theorem Underway.poll (h : Underway A c₁ ops c) (hturn : c.oneshots.length ≤ word)
    (hsent : SentOut c₁ seats) {f f' : YumBatchFuture α} {r : Poll (List α)}
    (hseated : f.Seated A seats) (hpoll : f.poll c.oneshots = some (r, f')) :
    TellsAll A seats ops r ∧ f'.Seated A seats := by
  cases f with
  | waiting futs =>
      have htells := h.pollPolling hturn hsent hseated
      rw [Option.some.inj hpoll] at htells
      exact htells
  | polling js =>
      have htells := h.pollPolling hturn hsent hseated
      rw [Option.some.inj hpoll] at htells
      exact htells
  | done => cases hpoll

/-- The operations of the client among the events. -/
def operations {ο : Type} (tr : List (Event × ο)) : List Op :=
  tr.filterMap fun e => match e.1 with
    | .op op => some op
    | .poll => none

/-- `Honest`, for a client beside a future. -/
def HonestBeside (A : Server) {κ : Type} (s : Client × κ) : Event → Prop
  | .op op => Honest A s.1 op
  | .poll => True

theorem sentOut_seats (h : Exchanged A c₀) (requests : List (BatchItem α)) :
    SentOut (c₀.batchRequest requests true).2 (c₀.seats requests) := by
  intro s hs
  obtain ⟨i, hi, rfl⟩ := List.mem_mapIdx.mp hs
  constructor
  · rw [Client.batchRequest_calls h.wellformed, List.getElem?_append_right (by simp [h.length])]
    simp [h.length, List.getElem?_mapIdx, List.getElem?_eq_getElem hi]
  · rw [Client.batchRequest_client]
    exact Nat.lt_of_lt_of_le (Nat.add_lt_add_left hi _)
      (Client.iterate_register_oneshots_length _ c₀).ge

/-- The client after a batch does not know what its answers decode to. -/
theorem Client.batchRequest_forget (h : c₀.Wellformed) (requests : List (BatchItem α)) :
    (c₀.batchRequest requests true).2 =
      (c₀.batchRequest (requests.map fun item =>
        (⟨item.method, item.params, Except.ok⟩ : BatchItem Value)) true).2 := by
  rw [batchRequest_client, batchRequest_client, registerBatch_calls _ h.ids_lt,
    registerBatch_calls _ h.ids_lt, List.length_map]
  congr 2
  refine List.ext_getElem (by simp) ?_
  intro i _ _
  simp

/-- A batch that is under way holds what belongs to its positions, whatever else the client does. -/
theorem batch_underway {past : List (Op × List Registration)}
    {requests : List (BatchItem α)} {tr : List (Event × Option (Poll (List α)))}
    {s : Client × YumBatchFuture α}
    (hpast : (history C).Run Client.new past c₀)
    (hpast' : (history C).Along (Honest A) Client.new past)
    (hrun : (batchMachine C α).Run
      ((c₀.batchRequest requests true).2, (c₀.batchRequest requests true).1) tr s)
    (hrun' : (batchMachine C α).Along (HonestBeside A)
      ((c₀.batchRequest requests true).2, (c₀.batchRequest requests true).1) tr)
    (hturn : s.1.oneshots.length ≤ word) :
    Underway A (c₀.batchRequest requests true).2 (operations tr) s.1 ∧
      s.2.Seated A (c₀.seats requests) := by
  have hexchanged₀ := exchanged_of_run hpast hpast'
  have hsent := sentOut_seats hexchanged₀ requests
  have hexchanged : Exchanged A (c₀.batchRequest requests true).2 := by
    rw [Client.batchRequest_forget hexchanged₀.wellformed]
    have hquiet : Honest A c₀ (.batchRequest (requests.map fun item =>
      ⟨item.method, item.params, Except.ok⟩) 0) := trivial
    exact hexchanged₀.step (C := C) hquiet rfl
  have hstart : (c₀.batchRequest requests true).1.Seated A (c₀.seats requests) := by
    have hresponses := Client.registerBatch_responses requests c₀
    simp only [Client.batchRequest, if_pos, hresponses, YumBatchFuture.Seated, joinAll]
    refine List.forall₂_iff_get.mpr ⟨by simp [Client.seats], ?_⟩
    intro i h₁ h₂
    simp [Client.seats, Seat.Holds]
  refine hrun.invariant_along hrun'
    (I := fun tr (s : Client × YumBatchFuture α) => s.1.oneshots.length ≤ word →
      Underway A (c₀.batchRequest requests true).2 (operations tr) s.1 ∧
        s.2.Seated A (c₀.seats requests))
    (fun _ => ⟨Underway.start hexchanged, hstart⟩) ?_ hturn
  rintro tr ⟨t, f⟩ t' e o _ hC ih hstep hlen
  cases e with
  | op op =>
      obtain ⟨⟨regs, t'⟩, hop, heq⟩ := Option.map_eq_some_iff.mp hstep
      cases heq
      obtain ⟨hunder, hseated⟩ := ih (Nat.le_trans (history_oneshots_mono hop) hlen)
      refine ⟨?_, hseated⟩
      have hops := hunder.step hC hop
      simpa [operations] using hops
  | poll =>
      obtain ⟨⟨p, t', f'⟩, hp, heq⟩ := Option.map_eq_some_iff.mp hstep
      cases heq
      obtain ⟨⟨p', f''⟩, hfut, heq⟩ := Option.map_eq_some_iff.mp hp
      cases heq
      obtain ⟨hunder, hseated⟩ := ih hlen
      refine ⟨?_, (hunder.poll hlen hsent hseated hfut).2⟩
      simpa [operations] using hunder

/-- What the next poll of a batch under way tells. -/
theorem Underway.tellsAll {s s' : Client × YumBatchFuture α} {r : Poll (List α)}
    (h : Underway A c₁ ops s.1) (hseated : s.2.Seated A seats) (hsent : SentOut c₁ seats)
    (hturn : s.1.oneshots.length ≤ word)
    (hpoll : (batchMachine C α).step s .poll = some (some r, s')) : TellsAll A seats ops r := by
  obtain ⟨⟨p, t', f'⟩, hp, heq⟩ := Option.map_eq_some_iff.mp hpoll
  cases heq
  obtain ⟨⟨p', f''⟩, hfut, heq⟩ := Option.map_eq_some_iff.mp hp
  cases heq
  exact (h.poll hturn hsent hseated hfut).1

/-- **A batch is told what the server answered to its calls, each at its own position.**  While
the counter makes no full turn, and whatever else the client does in between: a poll that is
ready returns answers to the calls of the batch in their order, one that fails returns an answer
to one of them or the timeout, and one that waits has a call that no response answered. -/
theorem batch_own_answers {past : List (Op × List Registration)}
    {requests : List (BatchItem α)} {tr : List (Event × Option (Poll (List α)))}
    {s s' : Client × YumBatchFuture α} {r : Poll (List α)}
    (hpast : (history C).Run Client.new past c₀)
    (hpast' : (history C).Along (Honest A) Client.new past)
    (hrun : (batchMachine C α).Run
      ((c₀.batchRequest requests true).2, (c₀.batchRequest requests true).1) tr s)
    (hrun' : (batchMachine C α).Along (HonestBeside A)
      ((c₀.batchRequest requests true).2, (c₀.batchRequest requests true).1) tr)
    (hturn : s.1.oneshots.length ≤ word)
    (hpoll : (batchMachine C α).step s .poll = some (some r, s')) :
    TellsAll A (c₀.seats requests) (operations tr) r := by
  obtain ⟨hunder, hseated⟩ := batch_underway hpast hpast' hrun hrun' hturn
  exact hunder.tellsAll hseated (sentOut_seats (exchanged_of_run hpast hpast') requests) hturn hpoll

end batches

/-- A server that knows two codes. -/
def codes : Server := fun call rv =>
  call.params = some [.string "0x01"] ∧ rv = .ok (.string "0x6001") ∨
  call.params = some [.string "0x02"] ∧ rv = .ok (.string "0x6002")

/-- The two codes come in one frame, the second first. -/
theorem twoCodes_answered : ∃ tr s s' r,
    (batchMachine Client.updateCodec String).Run ((Client.new.batchRequest twoCodes true).2,
      (Client.new.batchRequest twoCodes true).1) tr s ∧
    (batchMachine Client.updateCodec String).step s .poll = some (some r, s') ∧
    TellsAll codes (Client.new.seats twoCodes) (operations tr) r ∧
    r = .ok (.ready ["0x6001", "0x6002"]) := by
  have hrun : (batchMachine Client.updateCodec String).Run
      ((Client.new.batchRequest twoCodes true).2, (Client.new.batchRequest twoCodes true).1)
      [(.op (.frame [.success 2 (.string "0x6002"), .success 1 (.string "0x6001")]), none)] _ :=
    Mealy.Run.single rfl
  refine ⟨_, _, _, _, hrun, rfl, ?_, rfl⟩
  refine batch_own_answers (C := Client.updateCodec) Mealy.Run.nil
    (Mealy.along_of_forall (by simp)) hrun (Mealy.along_single ?_) (by decide) rfl
  intro r hr _
  rcases List.mem_cons.mp hr with rfl | hr
  · exact ⟨buildRequest 2 "eth_getCode" [.string "0x02"],
      List.mem_cons_of_mem _ List.mem_cons_self, rfl, Or.inr ⟨rfl, rfl⟩⟩
  · obtain rfl := List.mem_singleton.mp hr
    exact ⟨buildRequest 1 "eth_getCode" [.string "0x01"], List.mem_cons_self, rfl,
      Or.inl ⟨rfl, rfl⟩⟩

end Ethereyum
