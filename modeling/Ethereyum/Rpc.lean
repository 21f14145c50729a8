/-
# `Rpc` — JSON-RPC messages, and how an incoming text becomes responses

The message types are those of `jsonrpc_core`, cut to what the client reads:
of a failure's error object only its `Debug` text is used, so that text stands
for it.  Turning bytes into these types is `serde_json`'s work and is a
parameter, `Codec`; everything the client does with the result (`handle_*` in
`client/mod.rs`) is defined here.

The three decoders of the client differ in one point that matters later: a
text that is no response is tried again as a subscription `Notification`, a
binary frame is not.
-/
import Ethereyum.Value

namespace Ethereyum

/-! ## The messages -/

/-- `jsonrpc_core::Id`. -/
inductive Id where
  | null
  | num (n : Nat)
  | str (s : String)
  deriving DecidableEq, Repr

structure Success where
  result : Value
  id : Id

/-- `error` is the `Debug` text of the error object. -/
structure Failure where
  error : String
  id : Id

inductive Output where
  | success (s : Success)
  | failure (f : Failure)

inductive Response where
  | single (o : Output)
  | batch (os : List Output)

/-- `params` of a notification as it stands in the text, its `subscription`
still a string. -/
structure RawUpdate where
  subscription : String
  result : Value

structure SubscriptionUpdate where
  subscription : Nat
  result : Value

inductive Version where
  | v2
  deriving DecidableEq, Repr

/-- An outgoing `rpc::MethodCall`; its `params` are `Params::Array`. -/
structure MethodCall where
  jsonrpc : Option Version
  method : String
  params : Option (List Value)
  id : Id

/-- An outgoing `rpc::Request`. -/
inductive Request where
  | single (call : MethodCall)
  | batch (calls : List MethodCall)

/-- `build_request`. -/
def buildRequest (id : Nat) (method : String) (params : List Value) : MethodCall :=
  { jsonrpc := some .v2, method, params := some params, id := .num id }

/-! ## Responses -/

/-- `RpcResponse`. -/
inductive RpcResponse where
  | subscription (id : Nat) (result : Value)
  | success (id : Nat) (result : Value)
  | failure (id : Nat) (result : Error)

namespace RpcResponse

/-- `RpcResponse::into_response`. -/
def intoResponse : RpcResponse → Nat × Except Error Value
  | .subscription id result => (id, .ok result)
  | .success id result => (id, .ok result)
  | .failure id result => (id, .error result)

def isSubscription : RpcResponse → Bool
  | .subscription _ _ => true
  | _ => false

/-- The request a `Success` or `Failure` output answers. -/
def requestId : RpcResponse → Option Nat
  | .subscription _ _ => none
  | .success id _ => some id
  | .failure id _ => some id

theorem requestId_eq_some {r : RpcResponse} {id : Nat} :
    r.requestId = some id ↔ r.isSubscription = false ∧ r.intoResponse.1 = id := by
  cases r <;> simp [requestId, isSubscription, intoResponse]

end RpcResponse

/-! ## Decoding -/

/-- The third-party parsers and printers the client calls. -/
structure Codec where
  /-- `serde_json::from_str::<rpc::Response>` -/
  textResponse : String → Except Error Response
  /-- `serde_json::from_slice::<rpc::Response>` -/
  sliceResponse : List UInt8 → Except Error Response
  /-- `serde_json::from_str::<Notification>` but for the field `subscription` -/
  textUpdate : String → Except Error RawUpdate
  /-- `serde_json::to_string` of a request -/
  requestText : Request → String
  /-- `Debug` of a string -/
  debugStr : String → String

/-- `Debug` of an `Id`. -/
def Id.debug (C : Codec) : Id → String
  | .null => "Null"
  | .num n => "Num(" ++ toString n ++ ")"
  | .str s => "Str(" ++ C.debugStr s ++ ")"

/-- `usize_from_str`, the custom deserializer of `subscription`. -/
def usizeFromStr (s : String) : Except Error Nat :=
  match usizeFromStrRadix16 (clean0x s) with
  | some n => .ok n
  | none => .error .json

section
variable (C : Codec)

/-- `serde_json::from_str::<Notification>`, its `params`. -/
def fromStrNotification (text : String) : Except Error SubscriptionUpdate :=
  (C.textUpdate text).bind fun raw =>
    (usizeFromStr raw.subscription).bind fun n => .ok ⟨n, raw.result⟩

/-- The text of the error for an id that is not a number. -/
def invalidId (id : Id) : Error :=
  .rpcError ("invalid correlation id, expected int, got: " ++ id.debug C)

/-- `handle_success`. -/
def handleSuccess (s : Success) : Except Error RpcResponse :=
  match s.id with
  | .num id => .ok (.success id s.result)
  | other => .error (invalidId C other)

/-- `handle_failure`. -/
def handleFailure (f : Failure) : Except Error RpcResponse :=
  match f.id with
  | .num id => .ok (.failure id (.yumError f.error))
  | other => .error (invalidId C other)

/-- `handle_output`. -/
def handleOutput : Output → Except Error RpcResponse
  | .success s => handleSuccess C s
  | .failure f => handleFailure C f

/-- `collect::<Result<Vec<_>, _>>`: all values, or the first error. -/
def collect {α : Type} : List (Except Error α) → Except Error (List α)
  | [] => .ok []
  | .error e :: _ => .error e
  | .ok a :: rest =>
      match collect rest with
      | .error e => .error e
      | .ok as => .ok (a :: as)

/-- `handle_batch_output`. -/
def handleBatchOutput (os : List Output) : List (Except Error RpcResponse) :=
  os.map (handleOutput C)

/-- `handle_response`. -/
def handleResponse : Response → Except Error (List RpcResponse)
  | .single o => (handleOutput C o).bind fun r => .ok [r]
  | .batch os => collect (handleBatchOutput C os)

/-- `handle_text_message`. -/
def handleTextMessage (text : String) : Except Error (List RpcResponse) :=
  match C.textResponse text with
  | .ok resp => handleResponse C resp
  | .error _ =>
      match fromStrNotification C text with
      | .ok sub => .ok [.subscription sub.subscription sub.result]
      | .error e => .error e

/-- `handle_binary_message`. -/
def handleBinaryMessage (binary : List UInt8) : Except Error (List RpcResponse) :=
  (C.sliceResponse binary).bind (handleResponse C)

/-! ## What the decoders can produce -/

theorem handleOutput_isSubscription {o : Output} {r : RpcResponse}
    (h : handleOutput C o = .ok r) : r.isSubscription = false := by
  cases o with
  | success s =>
      simp only [handleOutput, handleSuccess] at h
      split at h
      · cases h; rfl
      · cases h
  | failure f =>
      simp only [handleOutput, handleFailure] at h
      split at h
      · cases h; rfl
      · cases h

theorem mem_collect {α : Type} {xs : List (Except Error α)} {as : List α} {a : α}
    (h : collect xs = .ok as) (ha : a ∈ as) : Except.ok a ∈ xs := by
  induction xs generalizing as with
  | nil =>
      simp only [collect, Except.ok.injEq] at h
      subst h
      exact absurd ha List.not_mem_nil
  | cons x xs ih =>
      cases x with
      | error e => cases h
      | ok b =>
          simp only [collect] at h
          split at h
          · cases h
          · rename_i bs hbs
            cases h
            rcases List.mem_cons.mp ha with rfl | hmem
            · exact List.mem_cons_self
            · exact List.mem_cons_of_mem _ (ih hbs hmem)

/-- A response, single or batch, never decodes to a subscription. -/
theorem handleResponse_isSubscription {resp : Response} {rs : List RpcResponse}
    (h : handleResponse C resp = .ok rs) : ∀ r ∈ rs, r.isSubscription = false := by
  intro r hr
  cases resp with
  | single o =>
      cases ho : handleOutput C o with
      | error e => simp [handleResponse, ho, Except.bind] at h
      | ok r' =>
          simp only [handleResponse, ho, Except.bind, Except.ok.injEq] at h
          subst h
          obtain rfl := List.mem_singleton.mp hr
          exact handleOutput_isSubscription C ho
  | batch os =>
      obtain ⟨o, _, ho⟩ := List.mem_map.mp (mem_collect h hr)
      exact handleOutput_isSubscription C ho

/-- A text decodes to answers of requests only, or it is one notification. -/
theorem handleTextMessage_cases {text : String} {rs : List RpcResponse}
    (h : handleTextMessage C text = .ok rs) :
    (∀ r ∈ rs, r.isSubscription = false) ∨ ∃ s v, rs = [.subscription s v] := by
  unfold handleTextMessage at h
  split at h
  · exact Or.inl (handleResponse_isSubscription C h)
  · split at h
    · cases h
      exact Or.inr ⟨_, _, rfl⟩
    · cases h

end

end Ethereyum
