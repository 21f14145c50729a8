/-
# `FirstCall` — a connection is handed out when its server has answered

`YumClient::with_timeout` makes a client and asks for the block number before anybody else has the
client.  What it returns is decided by a race:

| `req` | `sleep` | |
| :-- | :-- | :-- |
| could not be sent | | that error, at the first poll |
| a block number | | the client |
| an error | | that error |
| waits | elapsed, or failed | `ConnectionTimeout` |
| waits | waits | it waits |

The request is polled first.  In the meantime only the threads of the client work on its tables, so
that there is no other call that could be answered (`connected_by_answer`).  The tables do not know
whether the request was sent; its future does.
-/
import Ethereyum.Exchange

namespace Ethereyum

/-! ## The race -/

/-- What `with_timeout` fails with. -/
inductive StartError where
  | connectionTimeout
  | client (e : Error)

/-- What a poll of `tokio_timer::Sleep` shows. -/
inductive Sleep where
  | waits
  | elapsed
  | failed

structure FirstCall where
  client : Client
  req : YumFuture Nat
  sleep : Sleep
  returned : Bool

inductive FirstCallEvent where
  /-- the threads of the client work -/
  | work (op : Op)
  | ring (sleep : Sleep)
  | poll

/-- What the threads of a client do, without its owner. -/
def Op.background : Op → Bool
  | .frame _ => true
  | .body _ => true
  | .sweep _ _ => true
  | _ => false

namespace FirstCall

/-- `with_timeout`, when `Client::new` has returned; `de` is `de_u64`. -/
def new (C : Codec) (de : Value → Except Error Nat) (env : Env) : FirstCall :=
  let (req, client) := Client.new.request C "eth_blockNumber" [] de env
  { client, req, sleep := .waits, returned := false }

/-- `req.select2(sleep)`, with the closure that follows it. -/
def poll (s : FirstCall) : Except StartError (Async Client) × FirstCall :=
  match s.req.poll s.client.oneshots with
  | (.ok (.ready _), req) => (.ok (.ready s.client), { s with req, returned := true })
  | (.error e, req) => (.error (.client e), { s with req, returned := true })
  | (.ok .notReady, req) =>
      match s.sleep with
      | .waits => (.ok .notReady, { s with req })
      | _ => (.error .connectionTimeout, { s with req, returned := true })

/-- `with_timeout` as a machine. -/
def machine (C : Codec) :
    Mealy FirstCall FirstCallEvent (Option (Except StartError (Async Client))) where
  step s
    | .work op =>
        if op.background then
          ((history C).step s.client op).map fun r => (none, { s with client := r.2 })
        else none
    | .ring sleep =>
        match s.sleep with
        | .waits => some (none, { s with sleep })
        | _ => none
    | .poll => if s.returned then none else some (some s.poll.1, s.poll.2)

/-! ## Its outcome -/

/-- The only call there is. -/
def call : MethodCall := buildRequest 1 "eth_blockNumber" []

/-- The work of the threads along a trace. -/
def worked {ο : Type} (tr : List (FirstCallEvent × ο)) : List Op :=
  tr.filterMap fun e => match e.1 with
    | .work op => some op
    | _ => none

/-- The threads of the client hear from an honest server. -/
def HonestWork (A : Server) (s : FirstCall) : FirstCallEvent → Prop
  | .work op => Honest A s.client op
  | _ => True

/-- No response came under the id of the call. -/
def Silent (ops : List Op) : Prop := ∀ op ∈ ops, ¬ op.Answers 1

/-- The error of a call that could not be sent. -/
def notSent (C : Codec) : Error :=
  .yumError ("Couldn't send request: " ++ C.requestText (.single call))

/-- What the result `r` of a poll in the state `s` says of a call that was sent, when the threads
did `ops`. -/
structure Decides (A : Server) (de : Value → Except Error Nat) (ops : List Op) (s : FirstCall)
    (r : Except StartError (Async Client)) : Prop where
  connected : ∀ c, r = .ok (.ready c) → c = s.client ∧ ∃ n, Own A call de (.ok n)
  refused : ∀ e, r = .error (.client e) → e = Client.timedOut ∨ Own A call de (.error e)
  late : r = .error .connectionTimeout → s.sleep ≠ .waits ∧ Silent ops
  waits : r = .ok .notReady → s.sleep = .waits ∧ Silent ops

section race
variable {A : Server} {C : Codec} {de : Value → Except Error Nat} {env : Env} {s s' : FirstCall}
  {c c' : Client} {op : Op} {o : List Registration}
  {tr : List (FirstCallEvent × Option (Except StartError (Async Client)))}
  {r : Except StartError (Async Client)} {ops : List Op}

theorem background_oneshots (h : op.background = true)
    (hstep : (history C).step c op = some (o, c')) :
    c'.oneshots.length = c.oneshots.length := by
  cases op with
  | frame rs =>
      cases hstep
      exact Client.readFrame_oneshots_length c rs
  | body rs =>
      cases hstep
      exact Client.httpBody_oneshots_length c rs
  | sweep now order =>
      simp only [history] at hstep
      split at hstep
      · cases hstep
        exact Client.sweep_oneshots_length c now order
      · cases hstep
  | _ => cases h

/-- The future of the only call, until it is resolved. -/
def made (C : Codec) (de : Value → Except Error Nat) (env : Env) : YumFuture Nat :=
  if env.sent then .waiting 0 de else .error (notSent C)

/-- While the race goes on: the client has the one call, and `req` is as it was made. -/
structure Racing (A : Server) (C : Codec) (de : Value → Except Error Nat) (env : Env)
    (ops : List Op) (s : FirstCall) : Prop where
  underway : Underway A (new C de env).client ops s.client
  alone : s.client.oneshots.length = 1
  asMade : s.returned = false → s.req = made C de env

/-- The outcome of the send is in the future only. -/
theorem new_eq (C : Codec) (de : Value → Except Error Nat) (env : Env) : new C de env =
    { client := (Client.new.request C "eth_blockNumber" [] de ⟨env.now, true⟩).2,
      req := made C de env, sleep := .waits, returned := false } := by
  obtain ⟨now, sent⟩ := env
  cases sent with
  | true => rfl
  | false => rfl

theorem racing_new (A : Server) (C : Codec) (de : Value → Except Error Nat) (env : Env) :
    Racing A C de env [] (new C de env) := by
  have hquiet : Honest A Client.new (.request "eth_blockNumber" [] env.now) := trivial
  have hexchanged : Exchanged A (new C de env).client := by
    rw [new_eq]
    exact (exchanged_new A).step (C := C) hquiet rfl
  refine ⟨Underway.start hexchanged, ?_, fun _ => ?_⟩
  · rw [new_eq]
    rfl
  · rw [new_eq]

/-- A request that was sent tells what its call was answered. -/
theorem Racing.tells (h : Racing A C de env ops s) (hsent : env.sent = true)
    (hgoes : s.returned = false) : Tells A call de ops (s.req.poll s.client.oneshots).1 := by
  rw [h.asMade hgoes, made, if_pos hsent]
  have hcall : (new C de env).client.calls[0]? = some call := by
    rw [new_eq]
    rfl
  have hlt : 0 < (new C de env).client.oneshots.length := by
    rw [new_eq]
    exact Nat.zero_lt_one
  exact h.underway.tells (by rw [h.alone]; decide) hcall hlt de _

/-- A request that was not sent fails, and with it the race. -/
theorem Racing.fails (h : Racing A C de env ops s) (hsent : env.sent = false)
    (hgoes : s.returned = false) : s.poll.1 = .error (.client (notSent C)) := by
  have hunsent : ¬ env.sent = true := by simp [hsent]
  unfold poll
  rw [h.asMade hgoes, made, if_neg hunsent]
  rfl

theorem Racing.decides (h : Racing A C de env ops s) (hsent : env.sent = true)
    (hgoes : s.returned = false) : Decides A de ops s s.poll.1 := by
  have htells := h.tells hsent hgoes
  unfold poll
  generalize hpoll : s.req.poll s.client.oneshots = p at htells
  obtain ⟨p, req⟩ := p
  have hsilent : p = .ok .notReady → Silent ops :=
    fun hp op hop => htells.notReady hp op hop 1 rfl
  match p with
  | .ok (.ready n) =>
      refine ⟨fun c hc => ?_, fun e he => ?_, fun ht => ?_, fun hw => ?_⟩
      · cases hc
        exact ⟨rfl, n, htells.ready n rfl⟩
      · cases he
      · cases ht
      · cases hw
  | .error e =>
      refine ⟨fun c hc => ?_, fun e' he => ?_, fun ht => ?_, fun hw => ?_⟩
      · cases hc
      · cases he
        exact htells.error e rfl
      · cases ht
      · cases hw
  | .ok .notReady =>
      cases hsleep : s.sleep with
      | waits =>
          refine ⟨fun c hc => ?_, fun e he => ?_, fun ht => ?_, fun _ => ⟨hsleep, hsilent rfl⟩⟩
          · cases hc
          · cases he
          · cases ht
      | _ =>
          refine ⟨fun c hc => ?_, fun e he => ?_, fun _ => ⟨by simp [hsleep], hsilent rfl⟩,
            fun hw => ?_⟩
          · cases hc
          · cases he
          · cases hw

theorem Racing.decided (h : Racing A C de env ops s) (hclient : s'.client = s.client)
    (hreturned : s'.returned = true) : Racing A C de env ops s' := by
  refine ⟨by rw [hclient]; exact h.underway, by rw [hclient]; exact h.alone, ?_⟩
  intro hgoes
  rw [hreturned] at hgoes
  cases hgoes

/-- A poll leaves the client to its threads, and the request to the next poll if there is one. -/
theorem Racing.poll (h : Racing A C de env ops s) (hgoes : s.returned = false) :
    Racing A C de env ops s.poll.2 := by
  have hmade := h.asMade hgoes
  cases hsent : env.sent with
  | false =>
      simp only [made, hsent, Bool.false_eq_true, if_false] at hmade
      unfold FirstCall.poll
      rw [hmade]
      exact h.decided rfl rfl
  | true =>
      simp only [made, hsent, if_true] at hmade
      unfold FirstCall.poll
      rw [hmade]
      simp only [YumFuture.poll, YumFuture.pollWaiting]
      cases hslot : s.client.oneshots.poll 0 with
      | error e => exact h.decided rfl rfl
      | ok a =>
          cases a with
          | ready rv =>
              cases hread : rv.bind de with
              | ok n =>
                  simp only [hread]
                  exact h.decided rfl rfl
              | error e =>
                  simp only [hread]
                  exact h.decided rfl rfl
          | notReady =>
              cases s.sleep with
              | waits => exact ⟨h.underway, h.alone, fun _ => by rw [made, if_pos hsent]⟩
              | _ => exact h.decided rfl rfl

theorem Racing.step {e : FirstCallEvent} {o : Option (Except StartError (Async Client))}
    (h : Racing A C de env (worked tr) s) (hhonest : HonestWork A s e)
    (hstep : (machine C).step s e = some (o, s')) :
    Racing A C de env (worked (tr ++ [(e, o)])) s' := by
  cases e with
  | work op =>
      simp only [machine] at hstep
      split at hstep
      · next hop =>
          obtain ⟨⟨regs, c⟩, hclient, heq⟩ := Option.map_eq_some_iff.mp hstep
          cases heq
          have hworked : worked (tr ++ [(.work op, none)]) = worked tr ++ [op] := by
            simp [worked]
          rw [hworked]
          exact ⟨h.underway.step hhonest hclient,
            (background_oneshots hop hclient).trans h.alone, h.asMade⟩
      · cases hstep
  | ring sleep =>
      have hworked : worked (tr ++ [(.ring sleep, o)]) = worked tr := by simp [worked]
      rw [hworked]
      simp only [machine] at hstep
      split at hstep
      · cases hstep
        exact ⟨h.underway, h.alone, h.asMade⟩
      · cases hstep
  | poll =>
      have hworked : worked (tr ++ [(.poll, o)]) = worked tr := by simp [worked]
      rw [hworked]
      simp only [machine] at hstep
      split at hstep
      · cases hstep
      · next hgoes =>
          cases hstep
          exact h.poll (by simpa using hgoes)

/-- **A client is handed out only by a server that answered.**  Whatever the threads of the client
do and whenever the timer rings: when the call was sent, `with_timeout` returns the client only on a
block number that the server answered to that very call; it fails with `ConnectionTimeout` only when
the timer is done and no response came under the id of that call, and otherwise only with what the
server answered, or the client's own timeout; and it waits only as long as there is neither.  When
the call could not be sent, it fails with that, timer or not. -/
theorem connected_by_answer (hrun : (machine C).Run (new C de env) tr s)
    (hhonest : (machine C).Along (HonestWork A) (new C de env) tr)
    (hpoll : (machine C).step s .poll = some (some r, s')) :
    (env.sent = true → Decides A de (worked tr) s r) ∧
    (env.sent = false → r = .error (.client (notSent C))) := by
  have hracing : Racing A C de env (worked tr) s :=
    hrun.invariant_along hhonest (I := fun tr s => Racing A C de env (worked tr) s)
      (racing_new A C de env) fun _ hC h hstep => h.step hC hstep
  simp only [machine] at hpoll
  split at hpoll
  · cases hpoll
  · next hgoes =>
      cases hpoll
      have hgoes : s.returned = false := by simpa using hgoes
      exact ⟨fun hsent => hracing.decides hsent hgoes, fun hsent => hracing.fails hsent hgoes⟩

end race

/-- Reads the number of the only block. -/
def readNumber : Value → Except Error Nat
  | .string "0x1" => .ok 1
  | _ => .error .json

/-- The frame that answers the call. -/
def numberFrame : Op := .frame [.success 1 (.string "0x1")]

theorem numberFrame_honest {s : FirstCall} (hcalls : s.client.calls = [call]) :
    HonestWork quotes s (.work numberFrame) := by
  intro r hr _
  obtain rfl := List.mem_singleton.mp hr
  exact ⟨call, hcalls ▸ List.mem_cons_self, rfl, Or.inl ⟨rfl, rfl⟩⟩

/-- The answer comes when the timer has rung already, and wins; a call that could not be sent has
failed, whatever comes. -/
theorem late_answer_connects :
    (∃ tr s s', (machine Client.updateCodec).Run
        (new Client.updateCodec readNumber ⟨0, true⟩) tr s ∧
      tr.map Prod.fst = [.poll, .work numberFrame, .ring .elapsed] ∧
      (machine Client.updateCodec).step s .poll = some (some (.ok (.ready s.client)), s') ∧
      Decides quotes readNumber (worked tr) s (.ok (.ready s.client))) ∧
    ∃ tr s r s', (machine Client.updateCodec).Run
        (new Client.updateCodec readNumber ⟨0, false⟩) tr s ∧
      tr.map Prod.fst = [.work numberFrame, .ring .elapsed] ∧
      (machine Client.updateCodec).step s .poll = some (some r, s') ∧
      r = .error (.client (notSent Client.updateCodec)) := by
  constructor
  · have hrun : (machine Client.updateCodec).Run
        (new Client.updateCodec readNumber ⟨0, true⟩) _ _ :=
      Mealy.run_of_exec (show (machine Client.updateCodec).exec _
        [.poll, .work numberFrame, .ring .elapsed] = some (_, _) from rfl)
    refine ⟨_, _, _, hrun, rfl, rfl, (connected_by_answer hrun ?_ rfl).1 rfl⟩
    exact Mealy.along_cons trivial rfl
      (Mealy.along_cons (numberFrame_honest rfl) rfl (Mealy.along_single trivial))
  · have hrun : (machine Client.updateCodec).Run
        (new Client.updateCodec readNumber ⟨0, false⟩) _ _ :=
      Mealy.run_of_exec (show (machine Client.updateCodec).exec _
        [.work numberFrame, .ring .elapsed] = some (_, _) from rfl)
    refine ⟨_, _, _, _, hrun, rfl, rfl, (connected_by_answer (A := quotes) hrun ?_ rfl).2 rfl⟩
    exact Mealy.along_cons (numberFrame_honest rfl) rfl (Mealy.along_single trivial)

end FirstCall

end Ethereyum
