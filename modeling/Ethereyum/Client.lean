/-
# `Client` — the tables of `client/mod.rs` and what is done to them

A client is its id counter, the three shared tables, and the channels its
senders write to.  Each function below is one critical section of the source
or a sequence of them under the name of the function that runs them:

    nextId, insertPending, recordTs        the steps of a registration
    request, batchRequest                  a registration and the send
    readOne, readFrame                     the dispatch loop of `read_stream`
    httpOne, httpBody                      the dispatch loop of `send_http`
    timeOut, sweep                         one pass of the `with_timeout` thread
    addSubscription, notify                the subscription table

`send` touches none of the tables; whether it succeeds is the environment's
(`Env.sent`), and what it was given is appended to `wire`.  The iteration
order of the timestamp table is the environment's too: a sweep is given the
entries in the order in which the hash map lists them.
-/
import Ethereyum.Rpc
import Ethereyum.Future

namespace Ethereyum

/-! ## Subscription channels -/

/-- An `mpsc::unbounded` channel of notifications: what is queued, whether a
sender is left, and whether the receiver is. -/
structure Channel where
  queue : List Value
  tx : Bool
  rx : Bool

/-- A channel, by its place among the channels made so far. -/
abbrev ChannelId := Nat

abbrev Channels := List Channel

namespace Channels

/-- `mpsc::unbounded`. -/
def unbounded (cs : Channels) : ChannelId × Channels :=
  (cs.length, cs ++ [{ queue := [], tx := true, rx := true }])

/-- `UnboundedSender::unbounded_send`, which fails when the receiver is gone. -/
def unboundedSend (cs : Channels) (ch : ChannelId) (v : Value) : Channels :=
  cs.modify ch fun c => if c.rx then { c with queue := c.queue ++ [v] } else c

/-- The sender goes out of scope. -/
def dropSender (cs : Channels) (ch : ChannelId) : Channels :=
  cs.modify ch fun c => { c with tx := false }

/-- `UnboundedReceiver::poll`: the oldest value, or the end when no sender is left. -/
def poll (cs : Channels) (ch : ChannelId) : Async (Option Value) × Channels :=
  match cs[ch]? with
  | none => (.ready none, cs)
  | some c =>
      match c.queue with
      | v :: queue => (.ready (some v), cs.set ch { c with queue })
      | [] => if c.tx then (.notReady, cs) else (.ready none, cs)

end Channels

/-! ## The client -/

structure Client where
  ids : Nat
  pending : HashMap Nat Oneshot
  subscriptions : HashMap Nat ChannelId
  ts : HashMap Int (List Nat)
  oneshots : Oneshots
  channels : Channels
  wire : List Request

/-- What a call reads from outside: the clock second, and whether `send`
returned `Ok`. -/
structure Env where
  now : Int
  sent : Bool

/-- An element of the list given to `batch_request`. -/
structure BatchItem (α : Type) where
  method : String
  params : List Value
  de : Value → Except Error α

namespace Client

/-- The tables of `Client::new`. -/
def new : Client :=
  { ids := 1, pending := ∅, subscriptions := ∅, ts := ∅, oneshots := [], channels := [],
    wire := [] }

/-! ## Registration -/

/-- `Client::next_id`: `fetch_add` wraps around. -/
def nextId (c : Client) : Nat × Client := (c.ids, { c with ids := (c.ids + 1) % word })

/-- `oneshot::channel`. -/
def oneshotChannel (c : Client) : Oneshot × Client :=
  (c.oneshots.channel.1, { c with oneshots := c.oneshots.channel.2 })

/-- `pending.insert(id, tx)`, with the sender it replaces; that one goes out
of scope. -/
def insertPending (c : Client) (id : Nat) (tx : Oneshot) : Option Oneshot × Client :=
  match c.pending.lookup id with
  | none => (none, { c with pending := c.pending.insert id tx })
  | some old =>
      (some old, { c with
        pending := c.pending.insert id tx, oneshots := c.oneshots.dropSender old })

/-- `ts.entry(now).or_insert(Vec::new()).push(id)`. -/
def recordTs (c : Client) (now : Int) (id : Nat) : Client :=
  { c with ts := c.ts.insert now ((c.ts.lookup now).getD [] ++ [id]) }

/-- What `send` was given. -/
def push (c : Client) (msg : Request) : Client := { c with wire := c.wire ++ [msg] }

/-- `Client::request`. -/
def request {α : Type} (C : Codec) (c : Client) (method : String) (params : List Value)
    (de : Value → Except Error α) (env : Env) : YumFuture α × Client :=
  let (tx, c) := c.oneshotChannel
  let (id, c) := c.nextId
  let req := Request.single (buildRequest id method params)
  let c := (c.insertPending id tx).2
  let c := (c.recordTs env.now id).push req
  if env.sent then (.waiting tx de, c)
  else (.error (.yumError ("Couldn't send request: " ++ C.requestText req)), c)

/-- The registration loop of `batch_request`. -/
def registerBatch {α : Type} : List (BatchItem α) → Client →
    List MethodCall × List (Oneshot × (Value → Except Error α)) × Client
  | [], c => ([], [], c)
  | item :: rest, c =>
      let (tx, c) := c.oneshotChannel
      let (id, c) := c.nextId
      let call := buildRequest id item.method item.params
      let c := (c.insertPending id tx).2
      let (calls, responses, c) := registerBatch rest c
      (call :: calls, (tx, item.de) :: responses, c)

/-- `Client::batch_request`. -/
def batchRequest {α : Type} (c : Client) (requests : List (BatchItem α)) (sent : Bool) :
    YumBatchFuture α × Client :=
  let (calls, responses, c) := registerBatch requests c
  let c := c.push (.batch calls)
  if sent then (.waiting (responses.map fun r => .waitingFn r.1 r.2), c)
  else (.waiting (responses.map fun _ => .error (.yumError "Couldn't send request")), c)

/-! ## Dispatch -/

/-- `if let Some(tx) = guard.remove(&id) { tx.send(result) }`, with the sender
that was found. -/
def complete (c : Client) (id : Nat) (rv : Except Error Value) : Option Oneshot × Client :=
  match c.pending.lookup id with
  | none => (none, c)
  | some tx =>
      (some tx, { c with pending := c.pending.erase id, oneshots := c.oneshots.send tx rv })

/-- The `Subscription` branch of `read_stream`. -/
def notify (c : Client) (id : Nat) (result : Value) : Client :=
  match c.subscriptions.lookup id with
  | none => c
  | some sub => { c with channels := c.channels.unboundedSend sub result }

/-- One turn of the dispatch loop of `read_stream`. -/
def readOne (c : Client) : RpcResponse → Client
  | .subscription id result => c.notify id result
  | other => (c.complete other.intoResponse.1 other.intoResponse.2).2

/-- The dispatch loop of `read_stream`. -/
def readFrame (c : Client) (rpcResult : List RpcResponse) : Client := rpcResult.foldl readOne c

/-- One turn of the dispatch loop of `send_http`. -/
def httpOne (c : Client) (response : RpcResponse) : Client :=
  (c.complete response.intoResponse.1 response.intoResponse.2).2

/-- The dispatch loop of `send_http`. -/
def httpBody (c : Client) (rpcResult : List RpcResponse) : Client := rpcResult.foldl httpOne c

/-- `read_stream` on a text frame. -/
def readText (C : Codec) (c : Client) (text : String) : Client :=
  match handleTextMessage C text with
  | .ok rpcResult => c.readFrame rpcResult
  | .error _ => c

/-- `send_http` on the text of the answer. -/
def httpText (C : Codec) (c : Client) (text : String) : Client :=
  match handleTextMessage C text with
  | .ok rpcResult => c.httpBody rpcResult
  | .error _ => c

/-! ## Timeouts -/

/-- The cast `as i64` of a request id. -/
def asI64 (id : Nat) : Int := if id < 2 ^ 63 then id else (id : Int) - 2 ^ 64

def timedOut : Error := .rpcError "Rpc request timed out"

/-- One id of an expired bucket: the ids to remove, and the tables. -/
def timeOut (acc : List Int × Client) (id : Nat) : List Int × Client :=
  match acc.2.complete id (.error timedOut) with
  | (some _, c) => (acc.1 ++ [asI64 id], c)
  | (none, c) => (acc.1, c)

/-- The ids the sweep at `now` looks up, in the order of the table's iteration. -/
def expiredIds (now : Int) (order : List (Sigma fun _ : Int => List Nat)) : List Nat :=
  (order.filter fun b => decide (now - b.1 ≥ 10)).flatMap fun b => b.2

/-- One pass of the loop of `with_timeout`. -/
def sweep (c : Client) (now : Int) (order : List (Sigma fun _ : Int => List Nat)) : Client :=
  let (removed, c) := (expiredIds now order).foldl timeOut ([], c)
  { c with ts := removed.foldl (fun ts rem => ts.erase rem) c.ts }

/-! ## Subscriptions -/

/-- `mpsc::unbounded`. -/
def channel (c : Client) : ChannelId × Client :=
  (c.channels.unbounded.1, { c with channels := c.channels.unbounded.2 })

/-- `Client::add_subscription`; a sender it replaces goes out of scope. -/
def addSubscription (c : Client) (id : Nat) (tx : ChannelId) : Client :=
  match c.subscriptions.lookup id with
  | none => { c with subscriptions := c.subscriptions.insert id tx }
  | some old =>
      { c with
        subscriptions := c.subscriptions.insert id tx
        channels := c.channels.dropSender old }

end Client

end Ethereyum
