/-
# `LazyStream` — what the two lazy streams have in common

`BlockStream` and `TransactionStream` keep a queue of request futures with the
instants they were pushed at, poll the front one, and either let it go or push
it back.  Which requests they make is their own; the rest is here.

The futures come from the shared client.  Here a future is a `Ticket`: the
request it was made for, by its place among the requests of the stream, and
what polling it returns is the environment's (`PollEnv.answer`), as are the
instants `Instant::now()` reads.  Anything a server, a connection and a clock
can do is then some sequence of environments.

A `u64` or `usize` operation that would leave the type is `none`: the code was
compiled with overflow checks, or relies on the operation not overflowing.
-/
import Ethereyum.Future
import Ethereyum.Lib.Mealy

namespace Ethereyum

/-! ## Checked words -/

def checkedAdd (a b : Nat) : Option Nat := if a + b < word then some (a + b) else none

def checkedSub (a b : Nat) : Option Nat := if b ≤ a then some (a - b) else none

def checkedMul (a b : Nat) : Option Nat := if a * b < word then some (a * b) else none

theorem checkedAdd_of_lt {a b : Nat} (h : a + b < word) : checkedAdd a b = some (a + b) :=
  if_pos h

theorem checkedSub_of_le {a b : Nat} (h : b ≤ a) : checkedSub a b = some (a - b) :=
  if_pos h

theorem checkedMul_of_lt {a b : Nat} (h : a * b < word) : checkedMul a b = some (a * b) :=
  if_pos h

/-! ## Requests and their futures -/

/-- The future of a request: its place among the requests of the stream, and
what was asked for. -/
structure Ticket (κ : Type) where
  seq : Nat
  key : κ
  deriving DecidableEq

/-- The tickets of the requests `keys`, made after `n` others. -/
def ticketsFrom {κ : Type} (n : Nat) (keys : List κ) : List (Ticket κ) :=
  keys.mapIdx fun i key => ⟨n + i, key⟩

section tickets
variable {κ : Type}

theorem ticketsFrom_append (n : Nat) (keys keys' : List κ) :
    ticketsFrom n (keys ++ keys') =
      ticketsFrom n keys ++ ticketsFrom (n + keys.length) keys' := by
  simp [ticketsFrom, List.mapIdx_append, Nat.add_assoc, Nat.add_comm keys.length]

@[simp] theorem length_ticketsFrom (n : Nat) (keys : List κ) :
    (ticketsFrom n keys).length = keys.length := by
  simp [ticketsFrom]

theorem key_mem_of_mem_ticketsFrom {n : Nat} {keys : List κ} {f : Ticket κ}
    (h : f ∈ ticketsFrom n keys) : f.key ∈ keys := by
  obtain ⟨i, hi, rfl⟩ := List.mem_mapIdx.mp h
  exact List.getElem_mem hi

theorem nodup_ticketsFrom (n : Nat) (keys : List κ) : (ticketsFrom n keys).Nodup := by
  refine List.nodup_iff_injective_getElem.mpr ?_
  intro i j hij
  have hseq := congrArg Ticket.seq hij
  simp only [ticketsFrom, List.getElem_mapIdx] at hseq
  exact Fin.ext (Nat.add_left_cancel hseq)

end tickets

/-! ## One poll -/

/-- What a poll of a stream reads from outside: what the future of a ticket
returns when it is polled, the instant it was pushed at when this poll pushes
it, and the instant at which its age is taken. -/
structure PollEnv (κ β : Type) where
  answer : Ticket κ → Poll (Option β)
  stamp : Ticket κ → Nat
  now : Nat

/-- `Duration::from_secs(5)`, in nanoseconds. -/
def fiveSeconds : Nat := 5 * 10 ^ 9

/-- What becomes of a future that was taken from the queue and polled. -/
inductive Fate (β : Type) where
  | yielded (b : β)
  | null
  | failed (e : Error)
  | late
  | kept

/-- What the poll of the stream returns then. -/
def Fate.result {β : Type} : Fate β → Poll (Option β)
  | .yielded b => .ok (.ready (some b))
  | .failed e => .error e
  | _ => .ok .notReady

/-- The body of the `while let` of both streams: poll the future, and look at
its age when it is not done. -/
def PollEnv.fate {κ β : Type} (env : PollEnv κ β) (item : Nat × Ticket κ) : Fate β :=
  match env.answer item.2 with
  | .error e => .failed e
  | .ok (.ready (some b)) => .yielded b
  | .ok (.ready none) => .null
  | .ok .notReady => if env.now - item.1 < fiveSeconds then .kept else .late

theorem PollEnv.answer_of_yielded {κ β : Type} {env : PollEnv κ β} {item : Nat × Ticket κ} {b : β}
    (h : env.fate item = .yielded b) : env.answer item.2 = .ok (.ready (some b)) := by
  unfold fate at h
  split at h
  · cases h
  · rename_i b' hanswer
    cases h
    exact hanswer
  · cases h
  · split at h <;> cases h

/-- The loop that pushes the futures of a batch. -/
def PollEnv.push {κ β : Type} (env : PollEnv κ β) (queue : List (Nat × Ticket κ))
    (futs : List (Ticket κ)) : List (Nat × Ticket κ) :=
  queue ++ futs.map fun f => (env.stamp f, f)

/-- `VecDeque::pop_front`. -/
def popFront {α : Type} : List α → Option α × List α
  | [] => (none, [])
  | a :: as => (some a, as)

/-- What a poll of a stream did: what it returned, and which future it polled. -/
structure PollOut (κ β : Type) where
  result : Poll (Option β)
  polled : Option (Ticket κ × Fate β)

/-- The poll of a stream that ended. -/
def PollOut.done {κ β : Type} : PollOut κ β := { result := .ok (.ready none), polled := none }

/-- The poll of a stream whose front future had this fate. -/
def PollOut.of {κ β : Type} (item : Nat × Ticket κ) (fate : Fate β) : PollOut κ β :=
  { result := fate.result, polled := some (item.2, fate) }

@[simp] theorem push_tickets {κ β : Type} (env : PollEnv κ β) (queue : List (Nat × Ticket κ))
    (futs : List (Ticket κ)) :
    (env.push queue futs).map (·.2) = queue.map (·.2) ++ futs := by
  simp [PollEnv.push, Function.comp_def]

theorem Fate.result_ne_done {β : Type} (f : Fate β) : f.result ≠ .ok (.ready none) := by
  cases f <;> simp [result]

/-- The items a trace yielded, in order. -/
def yields {κ β : Type} (tr : List (PollEnv κ β × PollOut κ β)) : List β :=
  tr.filterMap fun e => match e.2.result with
    | .ok (.ready item) => item
    | _ => none

theorem yields_append {κ β : Type} (tr tr' : List (PollEnv κ β × PollOut κ β)) :
    yields (tr ++ tr') = yields tr ++ yields tr' :=
  List.filterMap_append

end Ethereyum
