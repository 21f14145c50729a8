/-
# `Correlation` — every request is answered at most once, and with its own answer

The invariant `Good` ties the id counter, `pending`, the buckets of `ts`, the
calls in progress and the completed oneshots together.  Its core is that ids
and oneshots are allocated in step, so that below the wrap-around of the
counter the id `tx + 1` belongs to the oneshot `tx` and to no other: an entry
of `pending`, a pair a call still holds and an old completion under one id are
then about one oneshot, and each of the three excludes the others.

Effects that only look (`Good.idle`), a removal that finds something
(`Good.complete`), an allocation (`Good.allocate`) and an insertion
(`Good.insert`) are the four ways the invariant is kept; every step of the
system is one or a few of these.
-/
import Ethereyum.Interleaving
import Ethereyum.Lib.Slots

namespace Ethereyum

/-! ## The invariant -/

/-- The oneshot `tx`, registered under `id`, got `rv` for a reason: from the
first output with that id that found its entry, or from a sweep at least ten
seconds after the bucket the id was recorded in. -/
def Resolved (es : List Effect) (id : Nat) (tx : Oneshot) (rv : Except Error Value) : Prop :=
  (∃ l₁ r l₂, es = l₁ ++ .dispatched r (some tx) :: l₂ ∧ r.requestId = some id ∧
      r.intoResponse.2 = rv ∧
      ∀ r' found, .dispatched r' found ∈ l₁ → r'.requestId = some id → found = none) ∨
  (∃ l₁ second now l₂, es = l₁ ++ .lookedUp id second now (some tx) :: l₂ ∧
      .recorded id second ∈ l₁ ∧ now - second ≥ 10 ∧ rv = .error Client.timedOut)

theorem Resolved.mono {es : List Effect} {id : Nat} {tx : Oneshot} {rv : Except Error Value}
    (h : Resolved es id tx rv) (es' : List Effect) : Resolved (es ++ es') id tx rv := by
  rcases h with ⟨l₁, r, l₂, rfl, h⟩ | ⟨l₁, second, now, l₂, rfl, h⟩
  · exact Or.inl ⟨l₁, r, l₂ ++ es', by simp, h⟩
  · exact Or.inr ⟨l₁, second, now, l₂ ++ es', by simp, h⟩

structure Good (es : List Effect) (s : Sys) : Prop where
  count : allocations es = s.client.oneshots.length
  ids : s.client.ids = (s.client.oneshots.length + 1) % word
  pending : ∀ id tx, s.client.pending.lookup id = some tx →
    id = tx + 1 ∧ s.client.oneshots.get tx = .empty ∧ .inserted id tx none ∈ es
  inserted : ∀ id tx old, .inserted id tx old ∈ es →
    old = none ∧ id = tx + 1 ∧ tx < s.client.oneshots.length
  held : ∀ (i : Nat) call id tx, s.calls[i]? = some call → call.held = some (id, tx) →
    id = tx + 1 ∧ tx < s.client.oneshots.length ∧ s.client.oneshots.get tx = .empty ∧
    ∀ id' old, .inserted id' tx old ∉ es
  heldOnce : ∀ (i j : Nat) call call' id id' tx, s.calls[i]? = some call →
    s.calls[j]? = some call' → call.held = some (id, tx) → call'.held = some (id', tx) → i = j
  recorded : ∀ second ids id, s.client.ts.lookup second = some ids → id ∈ ids →
    .recorded id second ∈ es
  scanning : ∀ now todo removed, s.sweep = .scanning now todo removed →
    ∀ second id, (second, id) ∈ todo → now - second ≥ 10 ∧ .recorded id second ∈ es
  dispatched : ∀ r id found, .dispatched r found ∈ es → r.requestId = some id →
    ∀ tx, found = some tx → id = tx + 1
  found : ∀ tx ∈ completions es, s.client.oneshots.get tx ≠ .empty
  once : (completions es).Nodup
  value : ∀ tx, s.client.oneshots.get tx = .empty ∨
    ∃ rv id, s.client.oneshots.get tx = .sent rv ∧ .inserted id tx none ∈ es ∧
      Resolved es id tx rv

theorem good_init : Good [] Sys.init where
  count := rfl
  ids := rfl
  pending := by simp [Sys.init, Client.new]
  inserted := by simp
  held := by simp [Sys.init]
  heldOnce := by simp [Sys.init]
  recorded := by simp [Sys.init, Client.new]
  scanning := by simp [Sys.init]
  dispatched := by simp
  found := by simp [completions]
  once := by simp [completions]
  value tx := Or.inl (by simp [Sys.init, Client.new, Oneshots.get])

variable {es : List Effect} {s : Sys}

/-- An entry of `pending` under `id` excludes an earlier output that found one. -/
theorem Good.nothing_found (h : Good es s) {id : Nat} {tx : Oneshot}
    (hp : s.client.pending.lookup id = some tx) {r : RpcResponse} {found : Option Oneshot}
    (hr : .dispatched r found ∈ es) (hid : r.requestId = some id) : found = none := by
  cases found with
  | none => rfl
  | some tx' =>
      obtain ⟨htx, hempty, _⟩ := h.pending id tx hp
      have htx' : id = tx' + 1 := h.dispatched r id _ hr hid tx' rfl
      obtain rfl : tx = tx' := by
        have := htx.symm.trans htx'
        exact Nat.succ.inj this
      have hmem : tx ∈ completions es := List.mem_filterMap.mpr ⟨_, hr, rfl⟩
      exact absurd hempty (h.found tx hmem)

/-! ### What more effects do not undo -/

theorem Good.scanning_append (h : Good es s) (es' : List Effect) {now : Int}
    {todo : List (Int × Nat)} {removed : List Int} (hs : s.sweep = .scanning now todo removed)
    {second : Int} {id : Nat} (hmem : (second, id) ∈ todo) :
    now - second ≥ 10 ∧ .recorded id second ∈ es ++ es' := by
  obtain ⟨hold, hrecorded⟩ := h.scanning now todo removed hs second id hmem
  exact ⟨hold, List.mem_append_left _ hrecorded⟩

theorem Good.value_append (h : Good es s) (es' : List Effect) (tx : Oneshot) :
    s.client.oneshots.get tx = .empty ∨
      ∃ rv id, s.client.oneshots.get tx = .sent rv ∧ .inserted id tx none ∈ es ++ es' ∧
        Resolved (es ++ es') id tx rv := by
  rcases h.value tx with hempty | ⟨rv, id, hsent, hins, hres⟩
  · exact Or.inl hempty
  · exact Or.inr ⟨rv, id, hsent, List.mem_append_left _ hins, hres.mono _⟩

/-! ## The four ways to keep it -/

/-- Effects that allocate nothing, insert nothing and complete nothing. -/
def Effect.Idle (e : Effect) : Prop :=
  e.isAllocated = false ∧ e.completed = none ∧ ∀ id tx old, e ≠ .inserted id tx old

/-- An effect that inserts nothing adds no insertion. -/
theorem inserted_of_mem_snoc {e : Effect} (he : ∀ id tx old, e ≠ .inserted id tx old) {id : Nat}
    {tx : Oneshot} {old : Option Oneshot} (hmem : Effect.inserted id tx old ∈ es ++ [e]) :
    Effect.inserted id tx old ∈ es := by
  rcases List.mem_append.mp hmem with hmem | hlast
  · exact hmem
  · exact absurd (List.mem_singleton.mp hlast).symm (he id tx old)

/-- A step that reports an idle effect and leaves the tables of the invariant
alone. -/
theorem Good.idle (h : Good es s) {e : Effect} (he : e.Idle) : Good (es ++ [e]) s := by
  obtain ⟨halloc, hcompleted, hinserted⟩ := he
  have hcompletions : completions (es ++ [e]) = completions es := by
    simp [completions, hcompleted]
  exact {
    count := by simp [allocations, halloc, ← h.count]
    ids := h.ids
    pending := by
      intro id tx hp
      obtain ⟨h₁, h₂, h₃⟩ := h.pending id tx hp
      exact ⟨h₁, h₂, List.mem_append_left _ h₃⟩
    inserted := fun id tx old hmem => h.inserted id tx old (inserted_of_mem_snoc hinserted hmem)
    held := by
      intro i call id tx hi hheld
      obtain ⟨h₁, h₂, h₃, h₄⟩ := h.held i call id tx hi hheld
      exact ⟨h₁, h₂, h₃, fun id' old hmem =>
        h₄ id' old (inserted_of_mem_snoc hinserted hmem)⟩
    heldOnce := h.heldOnce
    recorded := fun second ids id hl hid => List.mem_append_left _ (h.recorded second ids id hl hid)
    scanning := by
      intro now todo removed hs second id hmem
      exact h.scanning_append _ hs hmem
    dispatched := by
      intro r id found hmem hid tx hfound
      rcases List.mem_append.mp hmem with hmem | hmem
      · exact h.dispatched r id found hmem hid tx hfound
      · obtain rfl := List.mem_singleton.mp hmem
        exact absurd (hcompleted.symm.trans hfound) (by simp)
    found := by rw [hcompletions]; exact h.found
    once := by rw [hcompletions]; exact h.once
    value := h.value_append _ }

/-- Only these fields of the state matter to the invariant. -/
theorem Good.congr (h : Good es s) {s' : Sys} (hids : s'.client.ids = s.client.ids)
    (hpending : s'.client.pending = s.client.pending) (hts : s'.client.ts = s.client.ts)
    (honeshots : s'.client.oneshots = s.client.oneshots) (hcalls : s'.calls = s.calls)
    (hsweep : s'.sweep = s.sweep) : Good es s' where
  count := by rw [honeshots]; exact h.count
  ids := by rw [hids, honeshots]; exact h.ids
  pending := by rw [hpending, honeshots]; exact h.pending
  inserted := by rw [honeshots]; exact h.inserted
  held := by rw [hcalls, honeshots]; exact h.held
  heldOnce := by rw [hcalls]; exact h.heldOnce
  recorded := by rw [hts]; exact h.recorded
  scanning := by rw [hsweep]; exact h.scanning
  dispatched := h.dispatched
  found := by rw [honeshots]; exact h.found
  once := h.once
  value := by rw [honeshots]; exact h.value

/-- A removal that finds a sender and completes it, for a reason. -/
theorem Good.complete (h : Good es s) {id : Nat} {tx : Oneshot} {rv : Except Error Value}
    {e : Effect} (hfound : s.client.pending.lookup id = some tx) (halloc : e.isAllocated = false)
    (hcompleted : e.completed = some tx) (hinserted : ∀ id tx old, e ≠ .inserted id tx old)
    (hdispatched : ∀ r found, e = .dispatched r found → r.requestId = some id)
    (hreason : Resolved (es ++ [e]) id tx rv) :
    Good (es ++ [e]) { s with client := (s.client.complete id rv).2 } := by
  obtain ⟨hidtx, hempty, hins⟩ := h.pending id tx hfound
  obtain ⟨_, _, hlt⟩ := h.inserted id tx none hins
  have hclient : (s.client.complete id rv).2 = { s.client with
      pending := s.client.pending.erase id, oneshots := s.client.oneshots.send tx rv } := by
    rw [Client.complete_of_some rv hfound]
  have hlen : (s.client.oneshots.send tx rv).length = s.client.oneshots.length :=
    Oneshots.length_send _ _ _
  have hself : (s.client.oneshots.send tx rv).get tx = .sent rv :=
    Oneshots.get_send_self rv hlt hempty
  have hne : ∀ tx', tx' ≠ tx → (s.client.oneshots.send tx rv).get tx' =
      s.client.oneshots.get tx' := fun tx' hne => Oneshots.get_send_ne rv hne
  have hcompletions : completions (es ++ [e]) = completions es ++ [tx] := by
    simp [completions, hcompleted]
  rw [hclient]
  exact {
    count := by simp [allocations, halloc, hlen, ← h.count]
    ids := by simp only [hlen]; exact h.ids
    pending := by
      intro id' tx' hp
      simp only [lookup_erase_iff] at hp
      split at hp
      · cases hp
      · rename_i hid'
        obtain ⟨h₁, h₂, h₃⟩ := h.pending id' tx' hp
        have htx' : tx' ≠ tx := by
          rintro rfl
          exact hid' (h₁.trans hidtx.symm)
        exact ⟨h₁, (hne tx' htx').trans h₂, List.mem_append_left _ h₃⟩
    inserted := by
      intro id' tx' old hmem
      simp only [hlen]
      exact h.inserted id' tx' old (inserted_of_mem_snoc hinserted hmem)
    held := by
      intro i call id' tx' hi hheld
      obtain ⟨h₁, h₂, h₃, h₄⟩ := h.held i call id' tx' hi hheld
      have htx' : tx' ≠ tx := by
        rintro rfl
        exact h₄ id none hins
      refine ⟨h₁, ?_, (hne tx' htx').trans h₃, fun id'' old hmem =>
        h₄ id'' old (inserted_of_mem_snoc hinserted hmem)⟩
      simp only [hlen]
      exact h₂
    heldOnce := h.heldOnce
    recorded := fun second ids id hl hid => List.mem_append_left _ (h.recorded second ids id hl hid)
    scanning := by
      intro now todo removed hs second id hmem
      exact h.scanning_append _ hs hmem
    dispatched := by
      intro r id' found hmem hid' tx' hfound'
      rcases List.mem_append.mp hmem with hmem | hmem
      · exact h.dispatched r id' found hmem hid' tx' hfound'
      · obtain rfl := List.mem_singleton.mp hmem
        obtain rfl : id = id' :=
          Option.some.inj ((hdispatched r found rfl).symm.trans hid')
        obtain rfl : tx = tx' := Option.some.inj (hcompleted.symm.trans hfound')
        exact hidtx
    found := by
      intro tx' hmem
      rw [hcompletions] at hmem
      by_cases htx' : tx' = tx
      · subst htx'
        simp [hself]
      · have hold : tx' ∈ completions es :=
          (List.mem_append.mp hmem).resolve_right fun h' => htx' (List.mem_singleton.mp h')
        simp only [hne tx' htx']
        exact h.found tx' hold
    once := by
      rw [hcompletions, List.nodup_append]
      refine ⟨h.once, List.nodup_singleton tx, ?_⟩
      rintro tx' hmem _ hlast rfl
      obtain rfl := List.mem_singleton.mp hlast
      exact h.found _ hmem hempty
    value := by
      intro tx'
      by_cases htx' : tx' = tx
      · subst htx'
        exact Or.inr ⟨rv, id, hself, List.mem_append_left _ hins, hreason⟩
      · simp only [hne tx' htx']
        exact h.value_append _ tx' }

/-! ### Calls in progress -/

/-- A call that holds nothing may replace any call. -/
theorem Good.setCall (h : Good es s) (i : Nat) {call : Call} (hheld : call.held = none) :
    Good es { s with calls := s.calls.set i call } := by
  have hold : ∀ {j : Nat} {call' : Call} {id : Nat} {tx : Oneshot},
      (s.calls.set i call)[j]? = some call' → call'.held = some (id, tx) →
      s.calls[j]? = some call' := by
    intro j call' id tx hj hcall'
    rcases Slots.getElem?_set_cases hj with ⟨_, rfl⟩ | ⟨_, hj⟩
    · exact absurd (hheld.symm.trans hcall') (by simp)
    · exact hj
  exact { h with
    held := fun j call' id tx hj hcall' => h.held j call' id tx (hold hj hcall') hcall'
    heldOnce := fun j k call₁ call₂ id id' tx hj hk h₁ h₂ =>
      h.heldOnce j k call₁ call₂ id id' tx (hold hj h₁) (hold hk h₂) h₁ h₂ }

/-- A new call holds nothing. -/
theorem Good.addCall (h : Good es s) {call : Call} (hheld : call.held = none) :
    Good es { s with calls := s.calls ++ [call] } := by
  have hold : ∀ {j : Nat} {call' : Call} {id : Nat} {tx : Oneshot},
      (s.calls ++ [call])[j]? = some call' → call'.held = some (id, tx) →
      s.calls[j]? = some call' := by
    intro j call' id tx hj hcall'
    rcases Slots.getElem?_snoc_cases hj with hj | ⟨_, rfl⟩
    · exact hj
    · exact absurd (hheld.symm.trans hcall') (by simp)
  exact { h with
    held := fun j call' id tx hj hcall' => h.held j call' id tx (hold hj hcall') hcall'
    heldOnce := fun j k call₁ call₂ id id' tx hj hk h₁ h₂ =>
      h.heldOnce j k call₁ call₂ id id' tx (hold hj h₁) (hold hk h₂) h₁ h₂ }

/-- A call allocates an id and a oneshot, and holds them. -/
theorem Good.allocate (h : Good es s) {i : Nat} {call : Call} {id : Nat} {tx : Oneshot}
    {c : Client} (hc : Sys.allocate s.client = (id, tx, c)) (hheld : call.held = some (id, tx))
    (hbound : allocations (es ++ [.allocated id tx]) < word) :
    Good (es ++ [.allocated id tx]) { s with client := c, calls := s.calls.set i call } := by
  have halloc : allocations (es ++ [.allocated id tx]) = s.client.oneshots.length + 1 := by
    simp [allocations, Effect.isAllocated, ← h.count]
  obtain ⟨hid, htx, rfl⟩ : s.client.ids = id ∧ s.client.oneshots.length = tx ∧
      { s.client with oneshots := s.client.oneshots ++ [.empty],
                      ids := (s.client.ids + 1) % word } = c := by
    simpa [Sys.allocate, Client.oneshotChannel, Client.nextId, Oneshots.channel] using hc
  have hidtx : id = tx + 1 := by
    rw [← hid, ← htx, h.ids, Nat.mod_eq_of_lt (halloc ▸ hbound)]
  have hget : ∀ tx', (s.client.oneshots ++ [Slot.empty] : Oneshots).get tx' =
      s.client.oneshots.get tx' := Oneshots.get_channel s.client.oneshots
  have hlen : (s.client.oneshots ++ [Slot.empty]).length = s.client.oneshots.length + 1 := by
    simp
  have hempty : s.client.oneshots.get tx = .empty := by
    simp [Oneshots.get, ← htx]
  have hnew : ∀ id' old, Effect.inserted id' tx old ∉ es := fun id' old hmem =>
    absurd (h.inserted id' tx old hmem).2.2 (by rw [← htx]; exact Nat.lt_irrefl _)
  have hcompletions : completions (es ++ [.allocated id tx]) = completions es := by
    simp [completions, Effect.completed]
  exact {
    count := by simp only [halloc, hlen]
    ids := by simp only [hlen, h.ids, Nat.mod_add_mod]
    pending := by
      intro id' tx' hp
      obtain ⟨h₁, h₂, h₃⟩ := h.pending id' tx' hp
      exact ⟨h₁, (hget tx').trans h₂, List.mem_append_left _ h₃⟩
    inserted := by
      intro id' tx' old hmem
      have hmem : Effect.inserted id' tx' old ∈ es := by simpa using hmem
      obtain ⟨h₁, h₂, h₃⟩ := h.inserted id' tx' old hmem
      exact ⟨h₁, h₂, by simp only [hlen]; exact Nat.lt_succ_of_lt h₃⟩
    held := by
      intro j call' id' tx' hj hcall'
      simp only [hlen, hget, List.mem_append, List.mem_singleton, reduceCtorEq, or_false]
      rcases Slots.getElem?_set_cases hj with ⟨_, rfl⟩ | ⟨_, hj⟩
      · obtain ⟨rfl, rfl⟩ : id = id' ∧ tx = tx' := by simpa using hheld.symm.trans hcall'
        exact ⟨hidtx, htx ▸ Nat.lt_succ_self _, hempty, hnew⟩
      · obtain ⟨h₁, h₂, h₃, h₄⟩ := h.held j call' id' tx' hj hcall'
        exact ⟨h₁, Nat.lt_succ_of_lt h₂, h₃, h₄⟩
    heldOnce := by
      intro j k call₁ call₂ id₁ id₂ tx' hj hk h₁ h₂
      rcases Slots.getElem?_set_cases hj with ⟨hji, rfl⟩ | ⟨_, hj'⟩ <;>
        rcases Slots.getElem?_set_cases hk with ⟨hki, rfl⟩ | ⟨_, hk'⟩
      · exact hji.trans hki.symm
      · obtain ⟨_, rfl⟩ : id = id₁ ∧ tx = tx' := by simpa using hheld.symm.trans h₁
        exact absurd (h.held k call₂ id₂ tx hk' h₂).2.1 (by rw [← htx]; exact Nat.lt_irrefl _)
      · obtain ⟨_, rfl⟩ : id = id₂ ∧ tx = tx' := by simpa using hheld.symm.trans h₂
        exact absurd (h.held j call₁ id₁ tx hj' h₁).2.1 (by rw [← htx]; exact Nat.lt_irrefl _)
      · exact h.heldOnce j k call₁ call₂ id₁ id₂ tx' hj' hk' h₁ h₂
    recorded := fun second ids id hl hid => List.mem_append_left _ (h.recorded second ids id hl hid)
    scanning := by
      intro now todo removed hs second id hmem
      exact h.scanning_append _ hs hmem
    dispatched := fun r id found hmem => h.dispatched r id found (by simpa using hmem)
    found := by
      intro tx' hmem
      rw [hcompletions] at hmem
      simp only [hget]
      exact h.found tx' hmem
    once := by rw [hcompletions]; exact h.once
    value := by
      intro tx'
      simp only [hget]
      exact h.value_append _ tx' }

/-- What a held pair finds in `pending` when it is inserted: nothing. -/
theorem Good.lookup_held (h : Good es s) {i : Nat} {call : Call} {id : Nat} {tx : Oneshot}
    (hi : s.calls[i]? = some call) (hheld : call.held = some (id, tx)) :
    s.client.pending.lookup id = none := by
  obtain ⟨hidtx, _, _, hnew⟩ := h.held i call id tx hi hheld
  cases hp : s.client.pending.lookup id with
  | none => rfl
  | some tx' =>
      obtain ⟨hidtx', _, hins⟩ := h.pending id tx' hp
      obtain rfl : tx = tx' := Nat.succ.inj (hidtx.symm.trans hidtx')
      exact absurd hins (hnew id none)

/-- A call inserts the pair it holds. -/
theorem Good.insert (h : Good es s) {i : Nat} {call call' : Call} {id : Nat} {tx : Oneshot}
    (hi : s.calls[i]? = some call) (hheld : call.held = some (id, tx))
    (hheld' : call'.held = none) :
    Good (es ++ [.inserted id tx (s.client.insertPending id tx).1])
      { s with client := (s.client.insertPending id tx).2, calls := s.calls.set i call' } := by
  obtain ⟨hidtx, hlt, hempty, hnew⟩ := h.held i call id tx hi hheld
  have hnone := h.lookup_held hi hheld
  have hinsert : s.client.insertPending id tx =
      (none, { s.client with pending := s.client.pending.insert id tx }) := by
    simp [Client.insertPending, hnone]
  have hcompletions : completions (es ++ [.inserted id tx none]) = completions es := by
    simp [completions, Effect.completed]
  have hold : ∀ {j : Nat} {call₁ : Call} {id₁ : Nat} {tx₁ : Oneshot},
      (s.calls.set i call')[j]? = some call₁ → call₁.held = some (id₁, tx₁) →
      j ≠ i ∧ s.calls[j]? = some call₁ := by
    intro j call₁ id₁ tx₁ hj h₁
    rcases Slots.getElem?_set_cases hj with ⟨_, rfl⟩ | hj
    · exact absurd (hheld'.symm.trans h₁) (by simp)
    · exact hj
  rw [hinsert]
  exact {
    count := by simp [allocations, Effect.isAllocated, ← h.count]
    ids := h.ids
    pending := by
      intro id' tx' hp
      simp only [lookup_insert_iff] at hp
      split at hp
      · rename_i hid'
        obtain rfl := Option.some.inj hp
        subst hid'
        exact ⟨hidtx, hempty, List.mem_append_right _ (List.mem_singleton.mpr rfl)⟩
      · obtain ⟨h₁, h₂, h₃⟩ := h.pending id' tx' hp
        exact ⟨h₁, h₂, List.mem_append_left _ h₃⟩
    inserted := by
      intro id' tx' old hmem
      rcases List.mem_append.mp hmem with hmem | hmem
      · exact h.inserted id' tx' old hmem
      · obtain ⟨rfl, rfl, rfl⟩ : id' = id ∧ tx' = tx ∧ old = none := by simpa using hmem
        exact ⟨rfl, hidtx, hlt⟩
    held := by
      intro j call₁ id₁ tx₁ hj h₁
      obtain ⟨hji, hj'⟩ := hold hj h₁
      obtain ⟨h₂, h₃, h₄, h₅⟩ := h.held j call₁ id₁ tx₁ hj' h₁
      refine ⟨h₂, h₃, h₄, ?_⟩
      intro id' old hmem
      rcases List.mem_append.mp hmem with hmem | hmem
      · exact h₅ id' old hmem
      · -- two calls do not hold one oneshot
        obtain ⟨_, rfl, _⟩ : id' = id ∧ tx₁ = tx ∧ old = none := by simpa using hmem
        exact hji (h.heldOnce j i call₁ call id₁ id tx₁ hj' hi h₁ hheld)
    heldOnce := fun j k call₁ call₂ id₁ id₂ tx' hj hk h₁ h₂ =>
      h.heldOnce j k call₁ call₂ id₁ id₂ tx' (hold hj h₁).2 (hold hk h₂).2 h₁ h₂
    recorded := fun second ids id hl hid => List.mem_append_left _ (h.recorded second ids id hl hid)
    scanning := by
      intro now todo removed hs second id hmem
      exact h.scanning_append _ hs hmem
    dispatched := fun r id found hmem => h.dispatched r id found (by simpa using hmem)
    found := by rw [hcompletions]; exact h.found
    once := by rw [hcompletions]; exact h.once
    value := h.value_append _ }

/-! ### Timestamps -/

theorem Good.recordTs (h : Good es s) (now : Int) (id : Nat) :
    Good (es ++ [.recorded id now]) { s with client := s.client.recordTs now id } := by
  have hidle : Good (es ++ [.recorded id now]) s := h.idle ⟨rfl, rfl, fun _ _ _ => by simp⟩
  refine { hidle with recorded := ?_ }
  intro second ids id' hl hid'
  simp only [Client.recordTs_ts] at hl
  split at hl
  · rename_i hsecond
    obtain rfl := Option.some.inj hl
    subst hsecond
    rcases List.mem_append.mp hid' with hid' | hid'
    · cases hts : s.client.ts.lookup second with
      | none => simp [hts] at hid'
      | some ids =>
          rw [hts, Option.getD_some] at hid'
          exact List.mem_append_left _ (h.recorded second ids id' hts hid')
    · obtain rfl := List.mem_singleton.mp hid'
      exact List.mem_append_right _ (List.mem_singleton.mpr rfl)
  · exact hidle.recorded second ids id' hl hid'

/-- A bucket may go, and a sweep may move on to what was recorded. -/
theorem Good.withSweep (h : Good es s) (sweep : Sweep) (rem : Option Int)
    (hscan : ∀ now todo removed, sweep = .scanning now todo removed →
      ∀ second id, (second, id) ∈ todo → now - second ≥ 10 ∧ .recorded id second ∈ es) :
    Good es { s with
      client := { s.client with ts := rem.elim s.client.ts s.client.ts.erase }, sweep } :=
  { h with
    recorded := fun second ids id hl hid => by
      cases rem with
      | none => exact h.recorded second ids id hl hid
      | some k =>
          simp only [Option.elim_some, lookup_erase_iff] at hl
          split at hl
          · cases hl
          · exact h.recorded second ids id hl hid
    scanning := hscan }

/-! ## Every step keeps it -/

/-- An answer, dispatched on its own. -/
theorem Good.answer (h : Good es s) {r : RpcResponse} {id : Nat} (hid : r.requestId = some id) :
    Good (es ++ [responseEffect s.client r]) { s with client := s.client.httpOne r } := by
  obtain ⟨_, rfl⟩ := RpcResponse.requestId_eq_some.mp hid
  cases hfound : s.client.pending.lookup r.intoResponse.1 with
  | none =>
      have heffect : responseEffect s.client r = .dispatched r none := by
        simp [responseEffect, hid, hfound]
      rw [heffect, (Client.answer_unknown hid hfound).2]
      exact h.idle ⟨rfl, rfl, fun _ _ _ => by simp⟩
  | some tx =>
      have heffect : responseEffect s.client r = .dispatched r (some tx) := by
        simp [responseEffect, hid, hfound]
      rw [heffect]
      refine h.complete hfound rfl rfl (fun _ _ _ => by simp) ?_ ?_
      · rintro r' found heq
        cases heq
        exact hid
      · exact Or.inl ⟨es, r, [], rfl, hid, rfl, fun r' found hmem hid' =>
          h.nothing_found hfound hmem hid'⟩

theorem Good.readOne (h : Good es s) (r : RpcResponse) :
    Good (es ++ [responseEffect s.client r]) { s with client := s.client.readOne r } := by
  cases hsub : r.isSubscription with
  | false =>
      rw [Client.readOne_eq_httpOne _ hsub]
      exact h.answer (RpcResponse.requestId_eq_some.mpr ⟨hsub, rfl⟩)
  | true =>
      cases r with
      | subscription id v =>
          have hidle : Good (es ++ [.dispatched (.subscription id v) none]) s :=
            h.idle ⟨rfl, rfl, fun _ _ _ => by simp⟩
          exact hidle.congr (by simp [Client.readOne]) (by simp [Client.readOne])
            (by simp [Client.readOne]) (by simp [Client.readOne]) rfl rfl
      | success => cases hsub
      | failure => cases hsub

/-- A dispatch loop keeps what each of its turns keeps. -/
theorem Good.loop {turn : Client → RpcResponse → Client} {rs : List RpcResponse}
    (hturn : ∀ r ∈ rs, ∀ es s, Good es s →
      Good (es ++ [responseEffect s.client r]) { s with client := turn s.client r })
    (h : Good es s) :
    Good (es ++ loopEffects turn s.client rs) { s with client := rs.foldl turn s.client } := by
  induction rs generalizing es s with
  | nil => simpa [loopEffects] using h
  | cons r rs ih =>
      have hr := hturn r List.mem_cons_self es s h
      have hrs := ih (fun r' hr' => hturn r' (List.mem_cons_of_mem _ hr')) hr
      simpa [loopEffects, List.append_assoc] using hrs

theorem Good.advanceSweep {es' : List Effect} {s' : Sys} (h : Good es s)
    (hstep : s.advanceSweep = some (es', s')) : Good (es ++ es') s' := by
  unfold Sys.advanceSweep at hstep
  split at hstep
  · cases hstep
  · rename_i now second id todo removed hsweep
    obtain ⟨hold, hrecorded⟩ := h.scanning _ _ _ hsweep second id List.mem_cons_self
    have hrest : ∀ second' id', (second', id') ∈ todo →
        now - second' ≥ 10 ∧ Effect.recorded id' second' ∈ es := fun second' id' hmem =>
      h.scanning _ _ _ hsweep second' id' (List.mem_cons_of_mem _ hmem)
    -- after the lookup the scan goes on with the rest, whatever it found
    have hnext : ∀ {e : Effect} {c : Client} (removed' : List Int),
        Good (es ++ [e]) { s with client := c } →
        Good (es ++ [e]) { s with client := c, sweep := .scanning now todo removed' } := by
      intro e c removed' hgood
      refine hgood.withSweep _ none ?_
      intro now' todo' _ heq second' id' hmem
      cases heq
      obtain ⟨h₁, h₂⟩ := hrest second' id' hmem
      exact ⟨h₁, List.mem_append_left _ h₂⟩
    cases hfound : s.client.pending.lookup id with
    | none =>
        rw [Client.complete_of_none _ hfound] at hstep
        cases hstep
        exact hnext removed (h.idle ⟨rfl, rfl, fun _ _ _ => by simp⟩)
    | some tx =>
        have hgood : Good (es ++ [.lookedUp id second now (some tx)])
            { s with client := (s.client.complete id (.error Client.timedOut)).2 } := by
          refine h.complete hfound rfl rfl (fun _ _ _ => by simp) (fun _ _ heq => by cases heq) ?_
          exact Or.inr ⟨es, second, now, [], rfl, hrecorded, hold, rfl⟩
        rw [Client.complete_of_some _ hfound] at hstep hgood
        cases hstep
        exact hnext _ hgood
  · cases hstep
    simpa using h.withSweep _ none fun _ _ _ heq => by cases heq
  · rename_i rem removed hsweep
    cases hstep
    simpa using h.withSweep (.purging removed) (some rem) fun _ _ _ heq => by cases heq
  · cases hstep
    simpa using h.withSweep _ none fun _ _ _ heq => by cases heq

theorem Good.advanceCall {es' : List Effect} {c : Client} {call call' : Call} {i : Nat} {now : Int}
    (h : Good es s) (hi : s.calls[i]? = some call)
    (hstep : s.advanceCall now call = some (es', c, call'))
    (hbound : allocations (es ++ es') < word) :
    Good (es ++ es') { s with client := c, calls := s.calls.set i call' } := by
  unfold Sys.advanceCall at hstep
  split at hstep
  · cases hstep
    exact h.allocate rfl rfl hbound
  · cases hstep
    exact h.insert hi rfl rfl
  · split at hstep
    · cases hstep
    · cases hstep
      exact (h.recordTs now _).setCall i rfl
  · rename_i method params id
    cases hstep
    have hsent : Good es { s with calls := s.calls.set i (.request method params .sent) } :=
      h.setCall i rfl
    rw [List.append_nil]
    exact hsent.congr rfl rfl rfl rfl rfl rfl
  · cases hstep
  · cases hstep
    exact h.allocate rfl rfl hbound
  · cases hstep
    exact h.insert hi rfl rfl
  · rename_i calls
    cases hstep
    have hsent : Good es { s with calls := s.calls.set i (.batch [] calls .sent) } :=
      h.setCall i rfl
    rw [List.append_nil]
    exact hsent.congr rfl rfl rfl rfl rfl rfl
  · cases hstep

theorem mem_overdue {now : Int} {order : List (Sigma fun _ : Int => List Nat)} {second : Int}
    {id : Nat} : (second, id) ∈ Sys.overdue now order ↔
      now - second ≥ 10 ∧ ∃ ids, (⟨second, ids⟩ : Sigma fun _ : Int => List Nat) ∈ order ∧
        id ∈ ids := by
  constructor
  · intro h
    obtain ⟨b, hb, hid⟩ := List.mem_flatMap.mp h
    obtain ⟨id', hid', heq⟩ := List.mem_map.mp hid
    obtain ⟨rfl, rfl⟩ := Prod.mk.inj heq
    obtain ⟨hmem, hold⟩ := List.mem_filter.mp hb
    exact ⟨of_decide_eq_true hold, b.2, hmem, hid'⟩
  · rintro ⟨hold, ids, hmem, hid⟩
    refine List.mem_flatMap.mpr ⟨⟨second, ids⟩, ?_, List.mem_map.mpr ⟨id, hid, rfl⟩⟩
    exact List.mem_filter.mpr ⟨hmem, decide_eq_true hold⟩

theorem Good.step {es' : List Effect} {s' : Sys} {l : Label} (h : Good es s)
    (hstep : s.step l = some (es', s')) (hbound : allocations (es ++ es') < word) :
    Good (es ++ es') s' := by
  cases l with
  | request method params =>
      cases hstep
      simpa using h.addCall rfl
  | batchRequest requests =>
      cases hstep
      simpa using h.addCall rfl
  | advance i now =>
      simp only [Sys.step] at hstep
      split at hstep
      · cases hstep
      · rename_i call hi
        split at hstep
        · cases hstep
        · rename_i hcall
          cases hstep
          exact h.advanceCall hi hcall hbound
  | frame rs =>
      cases hstep
      exact h.loop fun r _ es s h => h.readOne r
  | body rs =>
      simp only [Sys.step] at hstep
      split at hstep
      · rename_i hrs
        cases hstep
        refine h.loop ?_
        intro r hr es s h
        have hnot := List.all_eq_true.mp hrs r hr
        have hid : r.requestId = some r.intoResponse.1 :=
          RpcResponse.requestId_eq_some.mpr ⟨by simpa using hnot, rfl⟩
        exact h.answer hid
      · cases hstep
  | sweepBegin now order =>
      simp only [Sys.step] at hstep
      split at hstep
      · split at hstep
        · rename_i hperm
          cases hstep
          have hscan : ∀ second id, (second, id) ∈ Sys.overdue now order →
              now - second ≥ 10 ∧ Effect.recorded id second ∈ es := by
            intro second id hmem
            obtain ⟨hold, ids, hb, hid⟩ := mem_overdue.mp hmem
            have hlookup : s.client.ts.lookup second = some ids :=
              AList.mem_lookup_iff.mpr (hperm.mem_iff.mp hb)
            exact ⟨hold, h.recorded second ids id hlookup hid⟩
          simpa using h.withSweep _ none fun now' todo _ heq => by cases heq; exact hscan
        · cases hstep
      · cases hstep
  | sweepNext => exact h.advanceSweep hstep

/-! ## Runs -/

/-- While fewer than 2^64 ids were allocated the invariant holds. -/
theorem good_of_run {tr : List (Label × List Effect)} {s : Sys}
    (h : Sys.machine.Run Sys.init tr s) (hbound : allocations (effects tr) < word) :
    Good (effects tr) s := by
  refine h.invariant (I := fun tr s => allocations (effects tr) < word → Good (effects tr) s)
    (fun _ => good_init) ?_ hbound
  intro tr t t' l es _ ih hstep hlt
  rw [effects_snoc] at hlt ⊢
  have hle : allocations (effects tr) ≤ allocations (effects tr ++ es) := by
    simp [allocations]
  exact (ih (Nat.lt_of_le_of_lt hle hlt)).step hstep hlt

/-- Request and response are correlated exactly once, in every interleaving of
callers, readers and sweeps below the wrap-around of the id counter: no
insertion replaces an entry, no oneshot is completed twice, a oneshot is empty
or got the first answer that found its entry or the timeout of a sweep at least
ten seconds late, and an answer to an id that is not pending changes nothing. -/
theorem exactly_once {tr : List (Label × List Effect)} {s : Sys}
    (h : Sys.machine.Run Sys.init tr s) (hbound : allocations (effects tr) < word) :
    (∀ id tx old, .inserted id tx old ∈ effects tr → old = none) ∧
    (completions (effects tr)).Nodup ∧
    (∀ tx, s.client.oneshots.get tx = .empty ∨
      ∃ rv id, s.client.oneshots.get tx = .sent rv ∧ .inserted id tx none ∈ effects tr ∧
        Resolved (effects tr) id tx rv) ∧
    (∀ (r : RpcResponse) (id : Nat) (before after : List RpcResponse), r.requestId = some id →
      ((s.client.readFrame before).pending.lookup id = none →
        s.client.readFrame (before ++ r :: after) = s.client.readFrame (before ++ after)) ∧
      ((s.client.httpBody before).pending.lookup id = none →
        s.client.httpBody (before ++ r :: after) = s.client.httpBody (before ++ after))) := by
  have hgood := good_of_run h hbound
  refine ⟨fun id tx old hmem => (hgood.inserted id tx old hmem).1, hgood.once, hgood.value, ?_⟩
  intro r id before after hid
  constructor
  · intro hnone
    have hskip : (s.client.readFrame before).readOne r = s.client.readFrame before :=
      (Client.answer_unknown hid hnone).1
    rw [Client.readFrame_append, Client.readFrame_append]
    exact congrArg (fun c : Client => c.readFrame after) hskip
  · intro hnone
    have hskip : (s.client.httpBody before).httpOne r = s.client.httpBody before :=
      (Client.answer_unknown hid hnone).2
    rw [Client.httpBody_append, Client.httpBody_append]
    exact congrArg (fun c : Client => c.httpBody after) hskip

/-- A call of `request`, up to its insertion, and two answers to it. -/
def answeredTwice : List Label :=
  [.request "eth_blockNumber" [], .advance 0 100, .advance 0 100,
    .frame [.success 1 (.string "0x1"), .success 1 (.string "0x2")]]

/-- The first answer is kept and completes the call once. -/
theorem second_answer_ignored : ∃ tr s,
    Sys.machine.exec Sys.init answeredTwice = some (tr, s) ∧
    s.client.oneshots.get 0 = .sent (.ok (.string "0x1")) ∧
    completions (effects tr) = [0] ∧ (completions (effects tr)).Nodup := by
  refine ⟨_, _, rfl, rfl, rfl, ?_⟩
  have hrun : Sys.machine.Run Sys.init _ _ :=
    Mealy.run_of_exec (show Sys.machine.exec Sys.init answeredTwice = some (_, _) from rfl)
  exact (exactly_once hrun (by decide)).2.1

end Ethereyum
