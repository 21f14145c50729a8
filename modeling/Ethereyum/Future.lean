/-
# `Future` — oneshot channels and the futures of `client/result.rs`

A oneshot channel is an index into a list of slots, one per channel made so
far; the sending end writes the slot at most once, the receiving end reads it.
A future of the library is a receiver with the function that decodes what
arrives, and polling it is a function of the slots.

`poll` moves the state out of `self` (`mem::replace`) and puts it back on the
pending path only, so the new state is part of the result.  An `unreachable!`
is the result `none`.

`JoinAll` is the future of `futures::future::join_all`: it polls the
unfinished elements in index order, keeps the values of the finished ones, is
ready when all are finished, and fails with the first error it meets.
-/
import Ethereyum.Value

namespace Ethereyum

/-- `futures::Async`. -/
inductive Async (α : Type) where
  | ready (a : α)
  | notReady
  deriving DecidableEq, Repr

/-- `futures::Poll`. -/
abbrev Poll (α : Type) := Except Error (Async α)

/-! ## Oneshot channels -/

/-- What the receiver of a oneshot can see; `dropped` is a sender that went
away without sending. -/
inductive Slot where
  | empty
  | sent (rv : Except Error Value)
  | dropped

/-- A oneshot channel, by its place among the channels made so far. -/
abbrev Oneshot := Nat

/-- The slots of all oneshot channels. -/
abbrev Oneshots := List Slot

namespace Oneshots

def get (o : Oneshots) (tx : Oneshot) : Slot := (o[tx]?).getD .empty

/-- `oneshot::channel`. -/
def channel (o : Oneshots) : Oneshot × Oneshots := (o.length, o ++ [.empty])

/-- `Sender::send`; a sender that was used is gone, so a second write cannot
happen and would change nothing. -/
def send (o : Oneshots) (tx : Oneshot) (rv : Except Error Value) : Oneshots :=
  match o.get tx with
  | .empty => o.set tx (.sent rv)
  | _ => o

/-- The sender goes out of scope. -/
def dropSender (o : Oneshots) (tx : Oneshot) : Oneshots :=
  match o.get tx with
  | .empty => o.set tx .dropped
  | _ => o

/-- `Receiver::poll`. -/
def poll (o : Oneshots) (rx : Oneshot) : Poll (Except Error Value) :=
  match o.get rx with
  | .empty => .ok .notReady
  | .sent rv => .ok (.ready rv)
  | .dropped => .error .canceled

theorem get_channel (o : Oneshots) (tx : Oneshot) : o.channel.2.get tx = o.get tx := by
  rcases Nat.lt_trichotomy tx o.length with h | h | h
  · simp [channel, get, List.getElem?_append_left h]
  · simp [channel, get, h]
  · have hlen : (o ++ [Slot.empty]).length ≤ tx := by
      rw [List.length_append]
      exact h
    simp only [channel, get, List.getElem?_eq_none hlen,
      List.getElem?_eq_none (Nat.le_of_lt h)]

theorem length_send (o : Oneshots) (tx : Oneshot) (rv : Except Error Value) :
    (o.send tx rv).length = o.length := by
  unfold send
  split <;> simp

theorem get_send_self {o : Oneshots} {tx : Oneshot} (rv : Except Error Value)
    (hlt : tx < o.length) (hempty : o.get tx = .empty) : (o.send tx rv).get tx = .sent rv := by
  unfold send
  rw [hempty]
  simp [get, hlt]

theorem get_send_ne {o : Oneshots} {tx tx' : Oneshot} (rv : Except Error Value)
    (hne : tx' ≠ tx) : (o.send tx rv).get tx' = o.get tx' := by
  unfold send
  split
  · simp [get, List.getElem?_set_ne (Ne.symm hne)]
  · rfl

theorem length_dropSender (o : Oneshots) (tx : Oneshot) :
    (o.dropSender tx).length = o.length := by
  unfold dropSender
  split <;> simp

theorem get_dropSender_ne {o : Oneshots} {tx tx' : Oneshot} (hne : tx' ≠ tx) :
    (o.dropSender tx).get tx' = o.get tx' := by
  unfold dropSender
  split
  · simp [get, List.getElem?_set_ne (Ne.symm hne)]
  · rfl

theorem get_dropSender_of_ne_empty {o : Oneshots} {tx tx' : Oneshot}
    (h : o.get tx' ≠ .empty) : (o.dropSender tx).get tx' = o.get tx' := by
  by_cases hne : tx' = tx
  · subst hne
    unfold dropSender
    split
    · rename_i hempty
      exact absurd hempty h
    · rfl
  · exact get_dropSender_ne hne

/-- A slot that was written keeps what was written. -/
theorem get_send_of_ne_empty {o : Oneshots} {tx tx' : Oneshot} (rv : Except Error Value)
    (h : o.get tx' ≠ .empty) : (o.send tx rv).get tx' = o.get tx' := by
  by_cases hne : tx' = tx
  · subst hne
    unfold send
    split
    · rename_i hempty
      exact absurd hempty h
    · rfl
  · exact get_send_ne rv hne

end Oneshots

/-! ## `YumFuture` -/

/-- `YumFuture`. -/
inductive YumFuture (α : Type) where
  | waiting (rx : Oneshot) (de : Value → Except Error α)
  | waitingFn (rx : Oneshot) (de : Value → Except Error α)
  | now (t : α)
  | complete
  | error (e : Error)

namespace YumFuture
variable {α : Type}

/-- The common body of the two waiting branches: `f.poll()?`, then the
deserializer; `keep` is the state put back when nothing arrived. -/
def pollWaiting (o : Oneshots) (rx : Oneshot) (de : Value → Except Error α)
    (keep : YumFuture α) : Poll α × YumFuture α :=
  match o.poll rx with
  | .error e => (.error e, .complete)
  | .ok .notReady => (.ok .notReady, keep)
  | .ok (.ready rv) =>
      match rv.bind de with
      | .ok t => (.ok (.ready t), .complete)
      | .error e => (.error e, .complete)

/-- `YumFuture::poll`. -/
def poll (o : Oneshots) : YumFuture α → Poll α × YumFuture α
  | .waiting rx de => pollWaiting o rx de (.waiting rx de)
  | .waitingFn rx de => pollWaiting o rx de (.waitingFn rx de)
  | .now t => (.ok (.ready t), .complete)
  | .complete => (.ok .notReady, .complete)
  | .error e => (.error e, .complete)

section
variable {o : Oneshots} {rx : Oneshot} {de : Value → Except Error α} {keep : YumFuture α}

theorem pollWaiting_empty (h : o.get rx = .empty) :
    pollWaiting o rx de keep = (.ok .notReady, keep) := by
  simp [pollWaiting, Oneshots.poll, h]

theorem pollWaiting_sent {v : Value} {t : α} (h : o.get rx = .sent (.ok v)) (hde : de v = .ok t) :
    pollWaiting o rx de keep = (.ok (.ready t), .complete) := by
  simp [pollWaiting, Oneshots.poll, h, Except.bind, hde]

end
end YumFuture

/-! ## `join_all` -/

/-- An element of a `JoinAll`. -/
inductive Elem (α : Type) where
  | pending (f : YumFuture α)
  | done (t : α)

abbrev JoinAll (α : Type) := List (Elem α)

/-- `future::join_all`. -/
def joinAll {α : Type} (futs : List (YumFuture α)) : JoinAll α := futs.map .pending

namespace JoinAll
variable {α : Type}

/-- Poll the unfinished elements in index order, up to the first error. -/
def scan (o : Oneshots) : JoinAll α → Except Error (JoinAll α)
  | [] => .ok []
  | .done t :: es => (scan o es).map (.done t :: ·)
  | .pending f :: es =>
      match f.poll o with
      | (.error e, _) => .error e
      | (.ok (.ready t), _) => (scan o es).map (.done t :: ·)
      | (.ok .notReady, f') => (scan o es).map (.pending f' :: ·)

/-- The values, when every element is finished. -/
def values : JoinAll α → Option (List α)
  | [] => some []
  | .done t :: es => (values es).map (t :: ·)
  | .pending _ :: _ => none

/-- `JoinAll::poll`. -/
def poll (o : Oneshots) (js : JoinAll α) : Poll (List α) × JoinAll α :=
  match scan o js with
  | .error e => (.error e, [])
  | .ok js' =>
      match values js' with
      | some ts => (.ok (.ready ts), [])
      | none => (.ok .notReady, js')

/-- What polling an element makes of it, when it does not fail. -/
inductive Scanned (o : Oneshots) : Elem α → Elem α → Prop
  | done (t : α) : Scanned o (.done t) (.done t)
  | ready {f : YumFuture α} {t : α} (result : (f.poll o).1 = .ok (.ready t)) :
      Scanned o (.pending f) (.done t)
  | waits {f : YumFuture α} (result : (f.poll o).1 = .ok .notReady) :
      Scanned o (.pending f) (.pending (f.poll o).2)

/-- A scan polls each element once, or stops at one that fails. -/
theorem scan_cases (o : Oneshots) (js : JoinAll α) :
    (∃ e f, scan o js = .error e ∧ .pending f ∈ js ∧ (f.poll o).1 = .error e) ∨
    ∃ js', scan o js = .ok js' ∧ List.Forall₂ (Scanned o) js js' := by
  -- the rest is scanned whenever the first element does not fail
  have hcons : ∀ (e e' : Elem α) (es : JoinAll α), Scanned o e e' →
      scan o (e :: es) = (scan o es).map (e' :: ·) →
      ((∃ e f, scan o es = .error e ∧ .pending f ∈ es ∧ (f.poll o).1 = .error e) ∨
        ∃ js', scan o es = .ok js' ∧ List.Forall₂ (Scanned o) es js') →
      (∃ e' f, scan o (e :: es) = .error e' ∧ .pending f ∈ e :: es ∧ (f.poll o).1 = .error e') ∨
        ∃ js', scan o (e :: es) = .ok js' ∧ List.Forall₂ (Scanned o) (e :: es) js' := by
    intro e e' es hscanned heq hrest
    rw [heq]
    rcases hrest with ⟨err, f, hfail, hmem, hpoll⟩ | ⟨js', hok, hall⟩
    · exact Or.inl ⟨err, f, by rw [hfail]; rfl, List.mem_cons_of_mem _ hmem, hpoll⟩
    · exact Or.inr ⟨e' :: js', by rw [hok]; rfl, .cons hscanned hall⟩
  induction js with
  | nil => exact Or.inr ⟨[], rfl, .nil⟩
  | cons e es ih =>
      cases e with
      | done t => exact hcons _ _ es (.done t) rfl ih
      | pending f =>
          cases hpoll : f.poll o with
          | mk r f' =>
              rcases r with err | a
              · refine Or.inl ⟨err, f, ?_, List.mem_cons_self, by rw [hpoll]⟩
                simp [scan, hpoll]
              · cases a with
                | ready t =>
                    refine hcons _ _ es (.ready (by rw [hpoll])) ?_ ih
                    simp [scan, hpoll]
                | notReady =>
                    refine hcons _ _ es (.waits (by rw [hpoll])) ?_ ih
                    simp [scan, hpoll]

theorem values_eq_some {js : JoinAll α} {ts : List α} :
    values js = some ts ↔ js = ts.map .done := by
  induction js generalizing ts with
  | nil => cases ts <;> simp [values]
  | cons e es ih =>
      cases e with
      | pending f => cases ts <;> simp [values]
      | done t =>
          cases ts with
          | nil => simp [values]
          | cons t' ts => simp [values, ih, and_comm]

/-- As long as a value is missing an element waits. -/
theorem exists_pending {js : JoinAll α} (h : values js = none) : ∃ f, .pending f ∈ js := by
  induction js with
  | nil => cases h
  | cons e es ih =>
      cases e with
      | pending f => exact ⟨f, List.mem_cons_self⟩
      | done t =>
          obtain ⟨f, hf⟩ := ih (Option.map_eq_none_iff.mp h)
          exact ⟨f, List.mem_cons_of_mem _ hf⟩

end JoinAll

/-! ## `YumBatchFuture` -/

/-- `YumBatchFuture`. -/
inductive YumBatchFuture (α : Type) where
  | waiting (futs : List (YumFuture α))
  | polling (futs : JoinAll α)
  | done

namespace YumBatchFuture
variable {α : Type}

/-- The `Polling` branch of `YumBatchFuture::poll`. -/
def pollPolling (o : Oneshots) (futs : JoinAll α) : Poll (List α) × YumBatchFuture α :=
  match futs.poll o with
  | (.error e, _) => (.error e, .done)
  | (.ok (.ready yf), _) => (.ok (.ready yf), .done)
  | (.ok .notReady, futs') => (.ok .notReady, .polling futs')

/-- `YumBatchFuture::poll`; a `Waiting` future turns into a `Polling` one and
is polled as such, a `Done` one is `unreachable!`. -/
def poll (o : Oneshots) : YumBatchFuture α → Option (Poll (List α) × YumBatchFuture α)
  | .waiting futs => some (pollPolling o (joinAll futs))
  | .polling futs => some (pollPolling o futs)
  | .done => none

end YumBatchFuture

end Ethereyum
