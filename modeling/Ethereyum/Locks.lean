/-
# `Locks` — the mutexes of the client, and the threads that take them

Five kinds of threads take the four mutexes of the client.  Threads of the program call
`request`, `batch_request`, `add_subscription`, `is_connected` and `stop`; the sentinel
visits the workers; the timeout thread sweeps the timestamps; each socket worker's thread
serves its mailbox and the messages of its socket.  A thread's program counter says how
far it has got, and `instr` what it does next:

    thread         holds               while it wants
    request        pending, then ts    nothing
    send           sockets or pending  nothing
    is_connected   sockets             the status of a worker
    stop           sockets             the end of a worker's thread
    sentinel       sockets             a pong or the status of a worker
    sweep          ts                  pending
    worker         pending             subscriptions

Of the data only what decides about locks and waits is here: the deque, the mailboxes,
and how many entries a loop goes over; a lookup is a branch either way.
-/
import Ethereyum.Lib.Mealy
import Ethereyum.Pool
import Ethereyum.Rpc
import Mathlib.Logic.Function.Basic

namespace Ethereyum

/-! ## Threads -/

/-- The mutexes of `Client`. -/
inductive Lock where
  | sockets
  | ts
  | pending
  | subscriptions
  deriving DecidableEq

/-- A thread, by its place; that of a worker is its connection. -/
abbrev ThreadId := ConnId

/-- How far a call of `Client::send` has got. -/
inductive Sending where
  | pop
  | popping
  | popped (worker : Option SocketWorker)
  | requesting (w : SocketWorker)
  | push (w : SocketWorker)
  | pushing (w : SocketWorker)
  | pushed
  /-- `send_http`, before the response -/
  | posting
  | respond
  | responding

/-- How far a thread of the program has got with its call; `msg` is what it sends. -/
inductive Calling where
  | idle
  | insert (msg : String)
  | inserting (msg : String)
  | stamp (msg : String)
  | stamping (msg : String)
  | insertAll (msg : String)
  | insertingAll (msg : String)
  | sending (msg : String) (pc : Sending)
  | subscribe
  | subscribing
  | ask
  | asking (i : Nat)
  | askingAt (i : Nat) (w : SocketWorker)
  | asked (k : ThreadId)
  | answered
  | stop
  | stopping (i : Nat)
  | stoppingAt (i : Nat) (w : SocketWorker)
  | taking (i : Nat) (w : SocketWorker)
  | joining (i : Nat) (k : ThreadId)
  | stopped

/-- How far the thread of `with_sentinel` has got. -/
inductive Watching where
  | asleep
  | visit
  | visiting (i : Nat)
  | ping (i : Nat) (w : SocketWorker)
  | pinged (i : Nat) (w : SocketWorker)
  | reconnect (i : Nat) (w : SocketWorker)
  | asked (i : Nat) (k : ThreadId)
  | unthreading (i : Nat)
  | connecting (i : Nat)
  | checking (i : Nat)
  | checkingAt (i : Nat)
  | askAgain (i : Nat) (w : SocketWorker)
  | askedAgain (i : Nat) (k : ThreadId)
  | panicking
  | visited
  | gone

/-- How far the thread of `with_timeout` has got; `n` ids are to be looked at, `m` were
removed. -/
inductive Sweeping where
  | asleep
  | sweep
  | sweeping
  | expire (n m : Nat)
  | expiring (n m : Nat)
  | expired (n m : Nat)
  | forget (m : Nat)
  | forgetting (m : Nat)

/-- How far the thread of a socket worker has got; `rs` are the responses to go. -/
inductive Serving where
  | listening
  | respond (rs : List RpcResponse)
  | responding (rs : List RpcResponse)
  | notifying (rs : List RpcResponse)
  | gone (ok : Bool)

inductive Thread where
  | caller (pc : Calling)
  | sentinel (pc : Watching)
  | timeout (pc : Sweeping)
  /-- the mailbox has each request with the thread that waits for the reply -/
  | worker (mailbox : List (SocketRequest × ThreadId)) (pc : Serving)

/-! ## What a thread does next -/

/-- What a thread does next, and where it is then. -/
inductive Instr where
  | lock (l : Lock) (next : Thread)
  | unlock (l : Lock) (next : Thread)
  | popFront (next : Option SocketWorker → Thread)
  | pushBack (w : SocketWorker) (next : Thread)
  /-- the worker at `i` in the deque -/
  | look (i : Nat) (next : Option SocketWorker → Thread)
  /-- takes the join handle of the worker at `i` -/
  | unthread (i : Nat) (next : Thread)
  /-- `send_request` -/
  | post (k : ThreadId) (req : SocketRequest) (next : Bool → Thread)
  | await (k : ThreadId) (next : Bool → Thread)
  | join (k : ThreadId) (next : Bool → Thread)
  /-- `SocketWorker::connect` for the worker at `i` -/
  | connect (i : Nat) (next : Bool → Thread)
  /-- the clock or the data decide -/
  | branch (next : Bool → Thread)
  | pick (next : Nat → Thread)
  | rest

def Sending.instr (msg : String) : Sending → Instr
  | .pop => .lock .sockets (.caller (.sending msg .popping))
  | .popping => .popFront fun w => .caller (.sending msg (.popped w))
  | .popped (some w) => .unlock .sockets (.caller (.sending msg (.requesting w)))
  | .popped none => .unlock .sockets (.caller (.sending msg .posting))
  | .requesting w => .post w.tx (.text msg) fun ok =>
      if ok then .caller (.sending msg (.push w)) else .caller (.sending msg .posting)
  | .push w => .lock .sockets (.caller (.sending msg (.pushing w)))
  | .pushing w => .pushBack w (.caller (.sending msg .pushed))
  | .pushed => .unlock .sockets (.caller .idle)
  | .posting => .branch fun decoded =>
      if decoded then .caller (.sending msg .respond) else .caller .idle
  | .respond => .lock .pending (.caller (.sending msg .responding))
  | .responding => .unlock .pending (.caller .idle)

def Calling.instr : Calling → Instr
  | .idle => .rest
  -- `request`
  | .insert msg => .lock .pending (.caller (.inserting msg))
  | .inserting msg => .unlock .pending (.caller (.stamp msg))
  | .stamp msg => .lock .ts (.caller (.stamping msg))
  | .stamping msg => .unlock .ts (.caller (.sending msg .pop))
  -- `batch_request`
  | .insertAll msg => .lock .pending (.caller (.insertingAll msg))
  | .insertingAll msg => .unlock .pending (.caller (.sending msg .pop))
  | .sending msg pc => pc.instr msg
  -- `add_subscription`
  | .subscribe => .lock .subscriptions (.caller .subscribing)
  | .subscribing => .unlock .subscriptions (.caller .idle)
  -- `is_connected`; a reply that does not come is a panic, which gives back the lock
  | .ask => .lock .sockets (.caller (.asking 0))
  | .asking i => .look i fun
      | none => .caller .answered
      | some w => if w.thread.isNone then .caller (.asking (i + 1)) else .caller (.askingAt i w)
  | .askingAt i w => .post w.tx .connectedStatus fun ok =>
      if ok then .caller (.asked w.tx) else .caller (.asking (i + 1))
  | .asked k => .await k fun _ => .caller .answered
  | .answered => .unlock .sockets (.caller .idle)
  -- `stop`; so do its two panics
  | .stop => .lock .sockets (.caller (.stopping 0))
  | .stopping i => .look i fun
      | none => .caller .stopped
      | some w => .caller (.stoppingAt i w)
  | .stoppingAt i w => .post w.tx .stop fun ok =>
      if ok then .caller (.taking i w) else .caller .stopped
  | .taking i w =>
      match w.thread with
      | none => .unlock .sockets (.caller .idle)
      | some k => .unthread i (.caller (.joining i k))
  | .joining i k => .join k fun ok =>
      if ok then .caller (.stopping (i + 1)) else .caller .stopped
  | .stopped => .unlock .sockets (.caller .idle)

def Watching.instr : Watching → Instr
  | .asleep => .branch fun _ => .sentinel .visit
  | .visit => .lock .sockets (.sentinel (.visiting 0))
  | .visiting i => .look i fun
      | none => .sentinel .visited
      | some w => .sentinel (.ping i w)
  | .ping i w => .post w.tx .ping fun ok =>
      if ok then .sentinel (.pinged i w) else .sentinel (.reconnect i w)
  | .pinged i w => .await w.tx fun ok =>
      if ok then .sentinel (.visiting (i + 1)) else .sentinel (.reconnect i w)
  -- `reconnect`
  | .reconnect i w =>
      if w.thread.isNone then .branch fun _ => .sentinel (.unthreading i)
      else .post w.tx .connectedStatus fun ok =>
        if ok then .sentinel (.asked i w.tx) else .sentinel (.unthreading i)
  | .asked i k => .await k fun ok =>
      if ok then .sentinel (.visiting (i + 1)) else .sentinel .panicking
  | .unthreading i => .unthread i (.sentinel (.connecting i))
  | .connecting i => .connect i fun ok =>
      if ok then .sentinel (.checking i) else .sentinel (.visiting (i + 1))
  | .checking i => .branch fun inTime =>
      if inTime then .sentinel (.checkingAt i) else .sentinel (.visiting (i + 1))
  | .checkingAt i => .look i fun
      | none => .sentinel (.visiting (i + 1))
      | some w => .sentinel (.askAgain i w)
  | .askAgain i w => .post w.tx .connectedStatus fun ok =>
      if ok then .sentinel (.askedAgain i w.tx) else .sentinel (.checking i)
  | .askedAgain i k => .await k fun ok =>
      if ok then .sentinel (.visiting (i + 1)) else .sentinel .panicking
  | .panicking => .unlock .sockets (.sentinel .gone)
  | .visited => .unlock .sockets (.sentinel .asleep)
  | .gone => .rest

def Sweeping.instr : Sweeping → Instr
  | .asleep => .branch fun _ => .timeout .sweep
  | .sweep => .lock .ts (.timeout .sweeping)
  | .sweeping => .pick fun n => .timeout (.expire n 0)
  | .expire 0 m => .unlock .ts (.timeout (.forget m))
  | .expire (n + 1) m => .lock .pending (.timeout (.expiring n m))
  -- the guard lives to the end of the `if let`
  | .expiring n m => .branch fun found =>
      if found then .timeout (.expired n (m + 1)) else .timeout (.expired n m)
  | .expired n m => .unlock .pending (.timeout (.expire n m))
  | .forget 0 => .branch fun _ => .timeout .asleep
  | .forget (m + 1) => .lock .ts (.timeout (.forgetting m))
  | .forgetting m => .unlock .ts (.timeout (.forget m))

/-- The write loop takes the requests, the read loop answers the responses; they share
the thread. -/
def Serving.instr (mailbox : List (SocketRequest × ThreadId)) : Serving → Instr
  | .listening =>
      match mailbox with
      | [] => .rest
      | (.stop, _) :: _ => .branch fun _ => .worker [] (.gone true)
      | _ :: mailbox => .branch fun _ => .worker mailbox .listening
  | .respond rs => .lock .pending (.worker mailbox (.responding rs))
  | .responding [] => .unlock .pending (.worker mailbox .listening)
  | .responding (.subscription _ _ :: rs) =>
      .lock .subscriptions (.worker mailbox (.notifying rs))
  | .responding (_ :: rs) => .branch fun _ => .worker mailbox (.responding rs)
  | .notifying rs => .unlock .subscriptions (.worker mailbox (.responding rs))
  | .gone _ => .rest

def Thread.instr : Thread → Instr
  | .caller pc => pc.instr
  | .sentinel pc => pc.instr
  | .timeout pc => pc.instr
  | .worker mailbox pc => pc.instr mailbox

/-! ## The threads together -/

/-- The calls a thread of the program makes. -/
inductive Entry where
  | request (msg : String)
  | batchRequest (msg : String)
  | addSubscription
  | isConnected
  | stop

def Entry.pc : Entry → Calling
  | .request msg => .insert msg
  | .batchRequest msg => .insertAll msg
  | .addSubscription => .subscribe
  | .isConnected => .ask
  | .stop => .stop

structure System where
  sockets : List SocketWorker
  owner : Lock → Option ThreadId
  threads : List Thread

inductive SystemEvent where
  /-- the program starts a thread -/
  | spawn
  | call (t : ThreadId) (entry : Entry)
  /-- the next step of a thread; `outcome` and `n` are what the world decides of it -/
  | run (t : ThreadId) (outcome : Bool) (n : Nat)
  /-- a message with these responses comes from the socket of a worker -/
  | receive (t : ThreadId) (rs : List RpcResponse)
  /-- the thread of a worker is over, because of its socket or by a panic -/
  | die (t : ThreadId) (ok : Bool)

namespace System

def goto (s : System) (t : ThreadId) (th : Thread) : System :=
  { s with threads := s.threads.set t th }

/-- How the thread of a worker ended. -/
def ended (s : System) (k : ThreadId) : Option Bool :=
  match s.threads[k]? with
  | some (.worker _ (.gone ok)) => some ok
  | _ => none

/-- Whether `unbounded_send` succeeds. -/
def accepts (s : System) (k : ThreadId) : Bool := (s.ended k).isNone

/-- A question of `t` is in the mailbox of `k`. -/
def asked (s : System) (k t : ThreadId) : Bool :=
  match s.threads[k]? with
  | some (.worker mailbox _) =>
      mailbox.contains (.ping, t) || mailbox.contains (.connectedStatus, t)
  | _ => false

def deliver (s : System) (k : ThreadId) (mail : SocketRequest × ThreadId) : System :=
  match s.threads[k]? with
  | some (.worker mailbox pc) => s.goto k (.worker (mailbox ++ [mail]) pc)
  | _ => s

def mapWorker (s : System) (i : Nat) (f : SocketWorker → SocketWorker) : System :=
  { s with sockets := s.sockets.modify i f }

/-- An instruction of the thread `t`. -/
def exec (s : System) (t : ThreadId) (outcome : Bool) (n : Nat) : Instr → Option System
  | .lock l next =>
      if s.owner l = none then
        some { s.goto t next with owner := Function.update s.owner l (some t) }
      else none
  | .unlock l next => some { s.goto t next with owner := Function.update s.owner l none }
  | .popFront next => some { s.goto t (next s.sockets.head?) with sockets := s.sockets.tail }
  | .pushBack w next => some { s.goto t next with sockets := s.sockets ++ [w] }
  | .look i next => some (s.goto t (next s.sockets[i]?))
  | .unthread i next => some ((s.goto t next).mapWorker i fun w => { w with thread := none })
  | .post k req next =>
      if s.accepts k then some ((s.goto t (next true)).deliver k (req, t))
      else some (s.goto t (next false))
  | .await k next =>
      if s.asked k t then none
      else if outcome then some (s.goto t (next true))
      else if s.accepts k then none
      else some (s.goto t (next false))
  | .join k next => (s.ended k).map fun ok => s.goto t (next ok)
  | .connect i next =>
      if outcome then
        some { (s.goto t (next true)).mapWorker i fun w =>
            { w with tx := s.threads.length, thread := some s.threads.length } with
          threads := s.threads.set t (next true) ++ [.worker [] .listening] }
      else some (s.goto t (next false))
  | .branch next => some (s.goto t (next outcome))
  | .pick next => some (s.goto t (next n))
  | .rest => none

/-- The threads as a machine. -/
def machine : Mealy System SystemEvent Unit where
  step s e := (match e with
    | .spawn => some { s with threads := s.threads ++ [Thread.caller .idle] }
    | .call t entry =>
        match s.threads[t]? with
        | some (.caller .idle) => some (s.goto t (.caller entry.pc))
        | _ => none
    | .run t outcome n => s.threads[t]?.bind fun th => s.exec t outcome n th.instr
    | .receive t rs =>
        match s.threads[t]? with
        | some (.worker mailbox .listening) => some (s.goto t (.worker mailbox (.respond rs)))
        | _ => none
    | .die t ok =>
        match s.threads[t]? with
        | some (.worker _ .listening) => some (s.goto t (.worker [] (.gone ok)))
        | _ => none).map fun s' => ((), s')

/-- What `Client::new` starts: a worker for each of the hosts, then the timeout thread
and the sentinel. -/
def fresh (hosts : List String) : System where
  sockets := hosts.mapIdx fun k host => { id := k, host, tx := k, thread := some k }
  owner := fun _ => none
  threads := hosts.map (fun _ => .worker [] .listening) ++ [.timeout .asleep, .sentinel .asleep]

end System

end Ethereyum
