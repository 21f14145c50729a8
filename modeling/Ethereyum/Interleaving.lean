/-
# `Interleaving` — the client shared by its callers, its readers and its sweeper

`Client.request` and `Client.batch_request` are not atomic: a caller allocates
an id, inserts it into `pending`, pushes it onto `ts` and sends, and between
any two of these another thread may do anything.  Here every critical section
is a step of its own.

    request       start → allocated → inserted → recorded → sent
    batch         (looping → allocated)*  looping → sent
    frame, body   one decoded list of responses, under the `pending` guard
    sweep         begin, one id after the other, unlock `ts`, one bucket after the other

A caller of `request` cannot push onto `ts` while a sweep scans it: the sweep
holds that lock for the whole scan.  `batch_request` holds the `pending` guard
for its whole loop, which the steps below do not use, so that they allow more
interleavings than the code.  What `send` returns goes to the caller only and
is no part of the shared state.

Every step reports its `Effect`s: what a removal from `pending` found, what an
insertion replaced.
-/
import Ethereyum.Lib.Mealy
import Ethereyum.Tables

namespace Ethereyum

/-! ## Callers -/

/-- How far a call of `request` has got. -/
inductive RequestPc where
  | start
  | allocated (id : Nat) (tx : Oneshot)
  | inserted (id : Nat)
  | recorded (id : Nat)
  | sent

/-- How far a call of `batch_request` has got. -/
inductive BatchPc where
  | looping
  | allocated (id : Nat) (tx : Oneshot)
  | sent

/-- A call in progress; a batch has elements to do and calls it has built. -/
inductive Call where
  | request (method : String) (params : List Value) (pc : RequestPc)
  | batch (todo : List (String × List Value)) (calls : List MethodCall) (pc : BatchPc)

/-- The id and the sender a call has made but not yet inserted. -/
def Call.held : Call → Option (Nat × Oneshot)
  | .request _ _ (.allocated id tx) => some (id, tx)
  | .batch _ _ (.allocated id tx) => some (id, tx)
  | _ => none

/-! ## Effects -/

inductive Effect where
  | allocated (id : Nat) (tx : Oneshot)
  | inserted (id : Nat) (tx : Oneshot) (replaced : Option Oneshot)
  | recorded (id : Nat) (second : Int)
  /-- a response was dispatched; `found` is the sender removed from `pending` -/
  | dispatched (r : RpcResponse) (found : Option Oneshot)
  /-- a sweep at `now` looked an id of the bucket `second` up -/
  | lookedUp (id : Nat) (second now : Int) (found : Option Oneshot)

namespace Effect

def isAllocated : Effect → Bool
  | .allocated _ _ => true
  | _ => false

/-- The oneshot an effect completes. -/
def completed : Effect → Option Oneshot
  | .dispatched _ found => found
  | .lookedUp _ _ _ found => found
  | _ => none

end Effect

/-- The number of ids allocated. -/
def allocations (es : List Effect) : Nat := es.countP Effect.isAllocated

/-- The oneshots completed, in order. -/
def completions (es : List Effect) : List Oneshot := es.filterMap Effect.completed

/-- What dispatching `r` finds in `pending`. -/
def responseEffect (c : Client) (r : RpcResponse) : Effect :=
  .dispatched r (r.requestId.bind fun id => c.pending.lookup id)

/-- The effects of a dispatch loop whose turns are `turn`. -/
def loopEffects (turn : Client → RpcResponse → Client) : Client → List RpcResponse → List Effect
  | _, [] => []
  | c, r :: rs => responseEffect c r :: loopEffects turn (turn c r) rs

/-! ## The system -/

/-- The `with_timeout` thread: asleep, scanning `ts` under its lock, or
removing buckets. -/
inductive Sweep where
  | idle
  | scanning (now : Int) (todo : List (Int × Nat)) (removed : List Int)
  | purging (removed : List Int)

def Sweep.isScanning : Sweep → Bool
  | .scanning _ _ _ => true
  | _ => false

structure Sys where
  client : Client
  calls : List Call
  sweep : Sweep

inductive Label where
  | request (method : String) (params : List Value)
  | batchRequest (requests : List (String × List Value))
  /-- the next step of a call; `now` is the clock second -/
  | advance (call : Nat) (now : Int)
  | frame (rs : List RpcResponse)
  /-- an HTTP body of `Success` and `Failure` outputs -/
  | body (rs : List RpcResponse)
  | sweepBegin (now : Int) (order : List (Sigma fun _ : Int => List Nat))
  | sweepNext

namespace Sys

def init : Sys := { client := .new, calls := [], sweep := .idle }

/-- `oneshot::channel()` and `next_id()`. -/
def allocate (c : Client) : Nat × Oneshot × Client :=
  let (tx, c) := c.oneshotChannel
  let (id, c) := c.nextId
  (id, tx, c)

/-- The next critical section of a call. -/
def advanceCall (s : Sys) (now : Int) : Call → Option (List Effect × Client × Call)
  | .request method params .start =>
      let (id, tx, c) := allocate s.client
      some ([.allocated id tx], c, .request method params (.allocated id tx))
  | .request method params (.allocated id tx) =>
      let (old, c) := s.client.insertPending id tx
      some ([.inserted id tx old], c, .request method params (.inserted id))
  | .request method params (.inserted id) =>
      if s.sweep.isScanning then none
      else some ([.recorded id now], s.client.recordTs now id,
        .request method params (.recorded id))
  | .request method params (.recorded id) =>
      some ([], s.client.push (.single (buildRequest id method params)),
        .request method params .sent)
  | .request _ _ .sent => none
  | .batch ((method, params) :: todo) calls .looping =>
      let (id, tx, c) := allocate s.client
      some ([.allocated id tx], c,
        .batch todo (calls ++ [buildRequest id method params]) (.allocated id tx))
  | .batch todo calls (.allocated id tx) =>
      let (old, c) := s.client.insertPending id tx
      some ([.inserted id tx old], c, .batch todo calls .looping)
  | .batch [] calls .looping =>
      some ([], s.client.push (.batch calls), .batch [] calls .sent)
  | .batch _ _ .sent => none

/-- The next critical section of the sweep. -/
def advanceSweep (s : Sys) : Option (List Effect × Sys) :=
  match s.sweep with
  | .idle => none
  | .scanning now ((second, id) :: todo) removed =>
      match s.client.complete id (.error Client.timedOut) with
      | (some tx, c) => some ([.lookedUp id second now (some tx)],
          { s with client := c, sweep := .scanning now todo (removed ++ [Client.asI64 id]) })
      | (none, c) => some ([.lookedUp id second now none],
          { s with client := c, sweep := .scanning now todo removed })
  | .scanning _ [] removed => some ([], { s with sweep := .purging removed })
  | .purging (rem :: removed) => some ([], { s with
      client := { s.client with ts := s.client.ts.erase rem }, sweep := .purging removed })
  | .purging [] => some ([], { s with sweep := .idle })

/-- The ids of the buckets at least ten seconds old, with their buckets. -/
def overdue (now : Int) (order : List (Sigma fun _ : Int => List Nat)) : List (Int × Nat) :=
  (order.filter fun b => decide (now - b.1 ≥ 10)).flatMap fun b => b.2.map fun id => (b.1, id)

def step (s : Sys) : Label → Option (List Effect × Sys)
  | .request method params =>
      some ([], { s with calls := s.calls ++ [.request method params .start] })
  | .batchRequest requests =>
      some ([], { s with calls := s.calls ++ [.batch requests [] .looping] })
  | .advance i now =>
      match s.calls[i]? with
      | none => none
      | some call =>
          match s.advanceCall now call with
          | none => none
          | some (es, c, call') =>
              some (es, { s with client := c, calls := s.calls.set i call' })
  | .frame rs =>
      some (loopEffects Client.readOne s.client rs, { s with client := s.client.readFrame rs })
  | .body rs =>
      if rs.all fun r => !r.isSubscription then
        some (loopEffects Client.httpOne s.client rs, { s with client := s.client.httpBody rs })
      else none
  | .sweepBegin now order =>
      match s.sweep with
      | .idle =>
          if order.Perm s.client.ts.entries then
            some ([], { s with sweep := .scanning now (overdue now order) [] })
          else none
      | _ => none
  | .sweepNext => s.advanceSweep

/-- The shared client as a machine. -/
def machine : Mealy Sys Label (List Effect) where
  step := step

end Sys

/-- All effects along a trace. -/
def effects (tr : List (Label × List Effect)) : List Effect := tr.flatMap Prod.snd

theorem effects_snoc (tr : List (Label × List Effect)) (l : Label) (es : List Effect) :
    effects (tr ++ [(l, es)]) = effects tr ++ es := by
  simp [effects]

end Ethereyum
