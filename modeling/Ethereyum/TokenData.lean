/-
# `TokenData` — what the built-in token data costs

`erc20.rs` has a table of tokens whose contracts do not answer as they should.  Each
method looks there first, and asks the contract for what the table does not have:

    token_name, token_symbol                      contract_string_var
    token_decimals, token_amount_in_eth           a batch of one

The contract's side of it is the argument of `unwrap_or`, and an argument is evaluated
before the call, whatever the call makes of it.  So the request goes out for the tokens
of the table as well, and its answer is thrown away (`token_data_requested`).

Addresses, amounts and floats are other crates' work (`TokenCrates`).
-/
import Ethereyum.ContractString
import Ethereyum.Tables

namespace Ethereyum

/-! ## What comes from other crates -/

/-- `TransactionCall`, of which `to` and `data` are set here. -/
structure TransactionCall (H160 : Type) where
  toAddr : H160
  data : String

structure TokenCrates (H160 U256 D F : Type) where
  /-- `{:?}` of an address -/
  debugH160 : H160 → String
  /-- `{:?}` of an amount -/
  debugU256 : U256 → String
  /-- `ser` of a call -/
  serCall : TransactionCall H160 → Value
  /-- `from_hex` of `rustc_serialize` -/
  fromHex : List UInt8 → Option (List UInt8)
  /-- `BigDecimal::from_str` -/
  bigDecimal : List Char → Except Error D
  /-- `x / BigDecimal::from(1.0 * 10_f64.powi(decimals as i32))` -/
  scaled : D → UInt8 → D
  /-- `to_f64` -/
  toF64 : D → Option F

/-! ## Small numbers -/

/-- The kinds of `std::num::ParseIntError`. -/
inductive ParseIntError where
  | empty
  | invalidDigit
  | overflow
  deriving DecidableEq

/-- `{:?}` of it. -/
def ParseIntError.debug (e : ParseIntError) : String :=
  let kind := match e with
    | empty => "Empty"
    | invalidDigit => "InvalidDigit"
    | overflow => "Overflow"
  "ParseIntError \x7b kind: " ++ kind ++ " \x7d"

/-- The digit loop of `u8::from_str_radix`. -/
def readU8Digits16 : Nat → List Char → Except ParseIntError Nat
  | acc, [] => .ok acc
  | acc, c :: cs =>
      match toDigit16 c with
      | none => .error .invalidDigit
      | some d => if acc * 16 + d < 256 then readU8Digits16 (acc * 16 + d) cs else .error .overflow

/-- `u8::from_str_radix(_, 16)`: one leading `+` is allowed, no digits are not. -/
def u8FromStrRadix16 (cs : List Char) : Except ParseIntError UInt8 :=
  match (match cs with | '+' :: rest => rest | _ => cs) with
  | [] => .error .empty
  | c :: rest => (readU8Digits16 0 (c :: rest)).map UInt8.ofNat

section tokens
variable {H160 U256 D F α : Type} (X : TokenCrates H160 U256 D F)

/-! ## The table -/

/-- `non_compliant_tokens`: name, symbol and decimals. -/
def nonCompliantTokens (address : H160) : Option (String × String × UInt8) :=
  match String.ofList (clean0x (X.debugH160 address)) with
  | "0000000000000000000000000000000000000000" => some ("Ether", "ETH", 18)
  | "84119cb33e8f590d75c2d6ea4e6b0741a7494eda" => some ("GigaWatt Token", "WTT", 0)
  | "ef68e7c694f40c8202821edf525de3782458639f" => some ("Loopring", "LRC", 18)
  | "e0b7927c4af23765cb51314a0e0521a9645f0e2a" => some ("DigixDAO", "DGD", 9)
  | "ff3519eeeea3e76f1f699ccce5e23ee0bdda41ac" => some ("Blockchain Capital", "BCAP", 0)
  | "5554e04e76533e1d14c52f05beef6c9d329e1e30" => some ("Autonio", "NIO", 0)
  | "b5a5f22694352c15b00323844ad545abb2b11028" => some ("ICON", "ICX", 18)
  | "c66ea802717bfb9833400264dd12c2bceaa34a6d" => some ("MakerDAO", "MKR", 18)
  | "5c543e7ae0a1104f78406c340e9c64fd9fce5170" => some ("vSlice", "VSL", 18)
  | "52903256dd18d85c2dc4a6c999907c9793ea61e3" => some ("INS Promo", "INSP", 0)
  | "d2308446536a0bad028ab8c090d62e1ea2a51f24" => some ("GNEISS Coin", "GNEISS", 0)
  | "014b50466590340d41307cc54dcee990c8d58aa8" => some ("ICOS", "ICOS", 6)
  | "8effd494eb698cc399af6231fccd39e08fd20b15" => some ("PIX Token", "PIX", 0)
  | "2df8286c9396f52e17dfee75d2e41e52609cf897" => some ("Silent Notary", "SNTR", 4)
  | "62a56a4a2ef4d355d34d10fbf837e747504d38d4" => some ("Paypex", "PAYX", 2)
  | "d51e852630debc24e9e1041a03d80a0107f8ef0c" => some ("Orium", "ORM", 0)
  | "01afc37f4f85babc47c0e2d0eababc7fb49793c8" => some ("W-GNT", "GNTM", 18)
  | "ce3d9c3f3d302436d12f18eca97a3b00e97be7cd" => some ("EPOSY", "EPOSY", 18)
  | "289fe11c6f46e28f9f1cfc72119aee92c1da50d0" => some ("EPOSN", "EPOSN", 18)
  | "dfbd6a960a55bcfcf59d5925351e05a51498bcef" => some ("ROCKCoin", "ROCK", 0)
  | "717f0cc11366818ba350aba9e7c7515ded8f8474" => some ("AiO", "AiO", 6)
  | "b15fe5a123e647ba594cea7a1e648646f95eb4aa" => some ("SharderToken", "SS", 18)
  | "20f5426df591a14b262327dc9866b0b5480a9f3f" => some ("iBTC", "iBTC", 8)
  | "6aedbf8dff31437220df351950ba2a3362168d1b" => some ("Dragonglass", "DGS", 8)
  | _ => none

/-! ## The requests -/

/-- `contract_call_var`. -/
def contractCallVar (address : H160) (data : String) : TransactionCall H160 :=
  { toAddr := address, data }

/-- `OpSet::contract_string_var`. -/
def Client.contractStringVar (C : Codec) (c : Client) (address : H160) (method : String)
    (env : Env) : YumFuture String × Client :=
  c.request C "eth_call" [X.serCall (contractCallVar address method)]
    (Ethereyum.contractStringVar X.fromHex) env

/-- `match self.batch_request(vec![item])`, of which the one future is taken. -/
def Client.callOne (c : Client) (item : BatchItem α) (sent : Bool) :
    Option (YumFuture α × Client) :=
  match c.batchRequest [item] sent with
  | (.waiting futs, c) => futs.getLast?.map fun fut => (fut, c)
  | _ => none

/-- `x / 10^decimals`, as a float. -/
def amountInEth (address : H160) (amount : U256) (decimals : UInt8) : Except Error F :=
  (X.bigDecimal (clean0x (X.debugU256 amount))).bind fun x =>
    match X.toF64 (X.scaled x decimals) with
    | some y => .ok y
    | none => .error (.yumError ("[" ++ X.debugH160 address ++ "] Couldn't convert amount (" ++
        X.debugU256 amount ++ ") to BigDecimal"))

/-- The function `op` of `token_amount_in_eth`. -/
def amountOp (address : H160) (amount : U256) (v : Value) : Except Error F :=
  (deString v).bind fun s =>
    match u8FromStrRadix16 (clean0x s) with
    | .ok decimals => amountInEth X address amount decimals
    | .error e => .error (.yumError ("[" ++ X.debugH160 address ++
        "] Couldn't parse decimal string value (" ++ s ++ ") as u8: " ++ e.debug))

/-- The function `op` of `token_decimals`. -/
def decimalsOp (address : H160) (v : Value) : Except Error UInt8 :=
  (deString v).bind fun s =>
    match u8FromStrRadix16 (clean0x s) with
    | .ok decimals => .ok decimals
    | .error e => .error (.yumError ("[" ++ X.debugH160 address ++
        "] Couldn't parse decimal string value as u8: " ++ e.debug))

namespace Client

/-! ## The methods

What follows `unwrap_or` stands before it here: it is evaluated first. -/

def tokenName (C : Codec) (c : Client) (address : H160) (env : Env) : YumFuture String × Client :=
  let known := (nonCompliantTokens X address).map fun info => YumFuture.now info.1
  let (asked, c) := c.contractStringVar X C address "0x06fdde03" env
  (known.getD asked, c)

def tokenSymbol (C : Codec) (c : Client) (address : H160) (env : Env) :
    YumFuture String × Client :=
  let known := (nonCompliantTokens X address).map fun info => YumFuture.now info.2.1
  let (asked, c) := c.contractStringVar X C address "0x95d89b41" env
  (known.getD asked, c)

def _tokenDecimals (c : Client) (address : H160) (op : Value → Except Error UInt8)
    (sent : Bool) : Option (YumFuture UInt8 × Client) :=
  c.callOne ⟨"eth_call", [X.serCall ⟨address, "0x313ce567"⟩], op⟩ sent

def tokenDecimals (c : Client) (address : H160) (sent : Bool) :
    Option (YumFuture UInt8 × Client) := do
  let known := (nonCompliantTokens X address).map fun info => YumFuture.now info.2.2
  let (asked, c) ← c._tokenDecimals X address (decimalsOp X address) sent
  return (known.getD asked, c)

/-- `none` is the panic of `unwrap` on an amount that is no number. -/
def tokenAmountInEth (c : Client) (address : H160) (amount : U256) (sent : Bool) :
    Option (YumFuture F × Client) := do
  let known ← match nonCompliantTokens X address with
    | none => some none
    | some (_, _, decimals) =>
        match amountInEth X address amount decimals with
        | .ok y => some (some (YumFuture.now y))
        | .error _ => none
  let (asked, c) ← c.callOne
    ⟨"eth_call", [X.serCall ⟨address, "0x313ce567"⟩], amountOp X address amount⟩ sent
  return (known.getD asked, c)

/-! ## What they do -/

/-- `c'` is `c` after one request more, of one call or of a batch of one. -/
structure Asked (c c' : Client) : Prop where
  ids : c'.ids = (c.ids + 1) % word
  pending : c'.pending = c.pending.insert c.ids c.oneshots.length
  sent : ∃ msg, c'.wire = c.wire ++ [msg]

/-- A request is registered, and handed to `send`. -/
theorem Asked.of_register {c c' : Client} {msg : Request} (hids : c'.ids = c.register.ids)
    (hpending : c'.pending = c.register.pending) (hwire : c'.wire = c.register.wire ++ [msg]) :
    Asked c c' where
  ids := hids.trans (register_ids c)
  pending := hpending.trans (register_pending c)
  sent := ⟨msg, by rw [hwire, register_wire]⟩

theorem Asked.ne {c c' : Client} (h : Asked c c') : c' ≠ c := by
  rintro rfl
  obtain ⟨msg, hwire⟩ := h.sent
  have hlen := congrArg List.length hwire
  rw [List.length_append, List.length_singleton] at hlen
  omega

/-- What a call returns that has the answer and asks for it all the same. -/
def AnswersAndAsks (c : Client) (x : α) (r : Option (YumFuture α × Client)) : Prop :=
  ∃ c', r = some (.now x, c') ∧ Asked c c'

/-- The answer is there, and the client is as it was. -/
def Offline (c : Client) (r : Option (YumFuture α × Client)) : Prop := ∃ x, r = some (.now x, c)

theorem AnswersAndAsks.not_offline {c : Client} {x : α} {r : Option (YumFuture α × Client)}
    (h : AnswersAndAsks c x r) : ¬ Offline c r := by
  rintro ⟨y, hoffline⟩
  obtain ⟨c', hr, hasked⟩ := h
  rw [hr] at hoffline
  cases hoffline
  exact hasked.ne rfl

section effects
variable (C : Codec) (c : Client) (address : H160)

theorem contractStringVar_asked (method : String) (env : Env) :
    Asked c (c.contractStringVar X C address method env).2 := by
  rw [contractStringVar, request_client]
  exact .of_register rfl rfl rfl

theorem callOne_asked (item : BatchItem α) (sent : Bool) :
    ∃ fut c', c.callOne item sent = some (fut, c') ∧ Asked c c' := by
  have hasked : Asked c (c.batchRequest [item] sent).2 := by
    rw [batchRequest_client]
    exact .of_register rfl rfl rfl
  cases sent with
  | false => exact ⟨_, _, rfl, hasked⟩
  | true => exact ⟨_, _, rfl, hasked⟩

/-- **For a token of the table the methods have the answer at once, and send a request
for it all the same.** -/
theorem token_data_requested {name symbol : String} {decimals : UInt8} (env : Env)
    (h : nonCompliantTokens X address = some (name, symbol, decimals)) :
    AnswersAndAsks c name (some (c.tokenName X C address env)) ∧
    AnswersAndAsks c symbol (some (c.tokenSymbol X C address env)) ∧
    AnswersAndAsks c decimals (c.tokenDecimals X address env.sent) ∧
    ∀ amount y, amountInEth X address amount decimals = .ok y →
      AnswersAndAsks c y (c.tokenAmountInEth X address amount env.sent) := by
  refine ⟨?_, ?_, ?_, ?_⟩
  · refine ⟨_, ?_, contractStringVar_asked X C c address "0x06fdde03" env⟩
    rw [tokenName, h]
    rfl
  · refine ⟨_, ?_, contractStringVar_asked X C c address "0x95d89b41" env⟩
    rw [tokenSymbol, h]
    rfl
  · obtain ⟨fut, c', hcall, hasked⟩ := callOne_asked c
      ⟨"eth_call", [X.serCall ⟨address, "0x313ce567"⟩], decimalsOp X address⟩ env.sent
    refine ⟨c', ?_, hasked⟩
    rw [tokenDecimals, h, _tokenDecimals, hcall]
    rfl
  · intro amount y hy
    obtain ⟨fut, c', hcall, hasked⟩ := callOne_asked c
      ⟨"eth_call", [X.serCall ⟨address, "0x313ce567"⟩], amountOp X address amount⟩ env.sent
    refine ⟨c', ?_, hasked⟩
    simp [tokenAmountInEth, h, hy, hcall]

/-- **No method is offline for a token of the table, in any state of the client.** -/
theorem token_data_never_offline {info : String × String × UInt8} (env : Env)
    (h : nonCompliantTokens X address = some info) :
    ¬ Offline c (some (c.tokenName X C address env)) ∧
    ¬ Offline c (some (c.tokenSymbol X C address env)) ∧
    ¬ Offline c (c.tokenDecimals X address env.sent) ∧
    ∀ amount, ¬ Offline c (c.tokenAmountInEth X address amount env.sent) := by
  obtain ⟨hname, hsymbol, hdecimals, hamount⟩ := token_data_requested X C c address env h
  refine ⟨hname.not_offline, hsymbol.not_offline, hdecimals.not_offline, ?_⟩
  intro amount
  cases hy : amountInEth X address amount info.2.2 with
  | ok y => exact (hamount amount y hy).not_offline
  | error e =>
      rintro ⟨y, hoffline⟩
      simp [tokenAmountInEth, h, hy] at hoffline

end effects

end Client

end tokens

/-- Addresses as bytes, with amounts and quotients as natural numbers. -/
def plainCrates : TokenCrates (List UInt8) Nat Nat Nat where
  debugH160 bs := String.ofList (Hex.hexChars bs)
  debugU256 n := toString n
  serCall call := .object [("to", .string (String.ofList ('0' :: 'x' :: Hex.hexChars call.toAddr))),
    ("data", .string call.data)]
  fromHex := Hex.hexDecode
  bigDecimal cs := match (String.ofList cs).toNat? with
    | some n => .ok n
    | none => .error (.yumError "InvalidDigit")
  scaled n decimals := n / 10 ^ decimals.toNat
  toF64 n := some n

/-- The zero address, under which the table has ether. -/
def etherAddress : List UInt8 := List.replicate 20 0

theorem etherAddress_listed :
    nonCompliantTokens plainCrates etherAddress = some ("Ether", "ETH", 18) := by
  decide +kernel

namespace Client

/-- No method is offline for ether, when the client is new. -/
theorem ether_never_offline :
    ¬ Offline new (some (new.tokenName plainCrates updateCodec etherAddress ⟨0, true⟩)) ∧
    ¬ Offline new (some (new.tokenSymbol plainCrates updateCodec etherAddress ⟨0, true⟩)) ∧
    ¬ Offline new (new.tokenDecimals plainCrates etherAddress true) ∧
    ∀ amount, ¬ Offline new (new.tokenAmountInEth plainCrates etherAddress amount true) :=
  token_data_never_offline plainCrates updateCodec new etherAddress ⟨0, true⟩ etherAddress_listed

/-- A new client names ether, and has a call for the name on the wire, under the id 1. -/
theorem ether_asked_for :
    ∃ c' params, new.tokenName plainCrates updateCodec etherAddress ⟨0, true⟩ =
        (.now "Ether", c') ∧
      c'.ids = 2 ∧ c'.wire = [.single (buildRequest 1 "eth_call" params)] ∧
      ¬ Offline new (some (new.tokenName plainCrates updateCodec etherAddress ⟨0, true⟩)) := by
  have hname : new.tokenName plainCrates updateCodec etherAddress ⟨0, true⟩ =
      (.now "Ether", (new.contractStringVar plainCrates updateCodec etherAddress "0x06fdde03"
        ⟨0, true⟩).2) := by
    rw [tokenName, etherAddress_listed]
    rfl
  refine ⟨_, _, hname, rfl, rfl, ?_⟩
  rintro ⟨x, hoffline⟩
  rw [hname] at hoffline
  have hids := congrArg (fun r => r.map fun r => r.2.ids) hoffline
  cases hids

end Client

end Ethereyum
