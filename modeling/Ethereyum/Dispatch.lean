/-
# `Dispatch` — the two dispatch loops, side by side

`read_stream` and `send_http` each have their own copy of the loop over the
decoded responses.  The copy in `read_stream` sends a `Subscription` to its
subscriber and everything else to the pending request of its id.  The copy in
`send_http` calls `into_response` on all three variants, so that a
notification's subscription id is looked up among the request ids.

On answers of requests the copies are the same function
(`readFrame_eq_httpBody`).  On a notification they agree exactly when its id is
neither a pending request nor a subscription somebody still listens to
(`paths_agree_iff`).
-/
import Ethereyum.Client

namespace Ethereyum

/-! ## Channels -/

theorem Channels.unboundedSend_of_closed {cs : Channels} {ch : ChannelId} (v : Value)
    (h : ∀ c, cs[ch]? = some c → c.rx = false) : cs.unboundedSend ch v = cs := by
  apply List.ext_getElem?
  intro i
  simp only [Channels.unboundedSend, List.getElem?_modify]
  by_cases hi : ch = i
  · subst hi
    cases hc : cs[ch]? with
    | none => rfl
    | some c => simp [h c hc]
  · simp [hi]

theorem Channels.getElem?_unboundedSend {cs : Channels} {ch : ChannelId} {c : Channel} (v : Value)
    (h : cs[ch]? = some c) (hrx : c.rx = true) :
    (cs.unboundedSend ch v)[ch]? = some { c with queue := c.queue ++ [v] } := by
  simp [Channels.unboundedSend, h, hrx]

theorem Channels.getElem?_unboundedSend_ne {cs : Channels} {ch ch' : ChannelId} (v : Value)
    (h : ch' ≠ ch) : (cs.unboundedSend ch v)[ch']? = cs[ch']? := by
  simp [Channels.unboundedSend, Ne.symm h]

namespace Client

/-! ## One response -/

theorem complete_of_none {c : Client} {id : Nat} (rv : Except Error Value)
    (h : c.pending.lookup id = none) : c.complete id rv = (none, c) := by
  simp [complete, h]

theorem complete_of_some {c : Client} {id : Nat} {tx : Oneshot} (rv : Except Error Value)
    (h : c.pending.lookup id = some tx) :
    c.complete id rv = (some tx, { c with
      pending := c.pending.erase id, oneshots := c.oneshots.send tx rv }) := by
  simp [complete, h]

/-- On an answer the two loops take the same turn. -/
theorem readOne_eq_httpOne {r : RpcResponse} (c : Client) (h : r.isSubscription = false) :
    c.readOne r = c.httpOne r := by
  cases r with
  | subscription => simp [RpcResponse.isSubscription] at h
  | success => rfl
  | failure => rfl

/-- An answer to no pending request changes nothing, on either path. -/
theorem answer_unknown {c : Client} {r : RpcResponse} {id : Nat} (hr : r.requestId = some id)
    (h : c.pending.lookup id = none) : c.readOne r = c ∧ c.httpOne r = c := by
  obtain ⟨hsub, rfl⟩ := RpcResponse.requestId_eq_some.mp hr
  have hhttp : c.httpOne r = c := by simp [httpOne, complete_of_none _ h]
  exact ⟨(readOne_eq_httpOne c hsub).trans hhttp, hhttp⟩

theorem notify_of_deaf {c : Client} {s : Nat} (v : Value)
    (h : ∀ ch chan, c.subscriptions.lookup s = some ch → c.channels[ch]? = some chan →
      chan.rx = false) : c.notify s v = c := by
  unfold notify
  split
  · rfl
  · rename_i ch hch
    rw [Channels.unboundedSend_of_closed v fun chan => h ch chan hch]

/-! ## Whole frames -/

theorem readFrame_eq_httpBody {rs : List RpcResponse} (c : Client)
    (h : ∀ r ∈ rs, r.isSubscription = false) : c.readFrame rs = c.httpBody rs := by
  induction rs generalizing c with
  | nil => rfl
  | cons r rs ih =>
      have hr := readOne_eq_httpOne c (h r List.mem_cons_self)
      have hrs := ih (c.httpOne r) fun r' hr' => h r' (List.mem_cons_of_mem _ hr')
      simp only [readFrame, httpBody, List.foldl_cons] at hrs ⊢
      rw [hr, hrs]

theorem readFrame_append (c : Client) (rs rs' : List RpcResponse) :
    c.readFrame (rs ++ rs') = (c.readFrame rs).readFrame rs' :=
  List.foldl_append

theorem httpBody_append (c : Client) (rs rs' : List RpcResponse) :
    c.httpBody (rs ++ rs') = (c.httpBody rs).httpBody rs' :=
  List.foldl_append

/-! ## The paths compared on a text body -/

/-- A text body does the same on both paths: the same requests stay pending,
the same oneshots get the same values, the same subscribers the same
notifications; and a notification completes no request on either. -/
structure PathsAgree (C : Codec) (c : Client) (text : String) : Prop where
  pending : (c.httpText C text).pending = (c.readText C text).pending
  oneshots : (c.httpText C text).oneshots = (c.readText C text).oneshots
  channels : (c.httpText C text).channels = (c.readText C text).channels
  notification : ∀ s v, handleTextMessage C text = .ok [.subscription s v] →
    (c.httpText C text).pending = c.pending ∧ (c.httpText C text).oneshots = c.oneshots ∧
    (c.readText C text).pending = c.pending ∧ (c.readText C text).oneshots = c.oneshots

/-- The body is no notification whose id some request or some live subscriber
waits under. -/
def Unaddressed (C : Codec) (c : Client) (text : String) : Prop :=
  ∀ s v, handleTextMessage C text = .ok [.subscription s v] →
    c.pending.lookup s = none ∧
    ∀ ch chan, c.subscriptions.lookup s = some ch → c.channels[ch]? = some chan → chan.rx = false

/-- A notification no one waits for is ignored by both loops. -/
theorem text_of_unaddressed {C : Codec} {c : Client} {text : String} {s : Nat} {v : Value}
    (h : Unaddressed C c text) (htext : handleTextMessage C text = .ok [.subscription s v]) :
    c.httpText C text = c ∧ c.readText C text = c := by
  obtain ⟨hpending, hdeaf⟩ := h s v htext
  constructor
  · simp [httpText, htext, httpBody, httpOne, RpcResponse.intoResponse, complete_of_none _ hpending]
  · simp [readText, htext, readFrame, readOne, notify_of_deaf v hdeaf]

/-- **The two paths agree on a body exactly when it is not a notification
addressed to a pending request or to a live subscriber.** -/
theorem paths_agree_iff (C : Codec) (c : Client) (text : String) :
    PathsAgree C c text ↔ Unaddressed C c text := by
  constructor
  · intro h s v htext
    obtain ⟨hpending, hslots, _, _⟩ := h.notification s v htext
    have hhttp : c.httpText C text = (c.complete s (.ok v)).2 := by
      simp [httpText, htext, httpBody, httpOne, RpcResponse.intoResponse]
    have hread : c.readText C text = c.notify s v := by
      simp [readText, htext, readFrame, readOne]
    have hnone : c.pending.lookup s = none := by
      cases hs : c.pending.lookup s with
      | none => rfl
      | some tx =>
          rw [hhttp, complete_of_some _ hs] at hpending
          have herased := congrArg (AList.lookup s) hpending
          simp [hs] at herased
    refine ⟨hnone, ?_⟩
    intro ch chan hch hchan
    cases hrx : chan.rx with
    | false => rfl
    | true =>
        have hchannels := h.channels
        rw [hhttp, hread, complete_of_none _ hnone] at hchannels
        have hgot := congrArg (fun cs : Channels => cs[ch]?) hchannels
        simp only [notify, hch, hchan, Channels.getElem?_unboundedSend v hchan hrx,
          Option.some.injEq] at hgot
        have hqueue := congrArg (fun c : Channel => c.queue.length) hgot
        simp at hqueue
  · intro h
    cases htext : handleTextMessage C text with
    | error e =>
        have hhttp : c.httpText C text = c := by simp [httpText, htext]
        have hread : c.readText C text = c := by simp [readText, htext]
        exact ⟨by rw [hhttp, hread], by rw [hhttp, hread], by rw [hhttp, hread],
          fun s v hs => by rw [htext] at hs; cases hs⟩
    | ok rs =>
        rcases handleTextMessage_cases C htext with hanswers | ⟨s, v, rfl⟩
        · have heq : c.httpText C text = c.readText C text := by
            simp [httpText, readText, htext, readFrame_eq_httpBody c hanswers]
          refine ⟨by rw [heq], by rw [heq], by rw [heq], ?_⟩
          intro s v hs
          rw [htext, Except.ok.injEq] at hs
          subst hs
          exact absurd (hanswers _ List.mem_cons_self) (by simp [RpcResponse.isSubscription])
        · obtain ⟨hhttp, hread⟩ := text_of_unaddressed h htext
          exact ⟨by rw [hhttp, hread], by rw [hhttp, hread], by rw [hhttp, hread],
            fun _ _ _ => by rw [hhttp, hread]; exact ⟨rfl, rfl, rfl, rfl⟩⟩

/-! ### A notification under a request's id -/

/-- Parsers that read every text as the notification `0x1`. -/
def updateCodec : Codec where
  textResponse _ := .error .json
  sliceResponse _ := .error .json
  textUpdate _ := .ok ⟨"0x1", .string "0x4dfbff"⟩
  requestText _ := ""
  debugStr s := s

/-- A client with one request in flight, under id 1. -/
def oneInFlight : Client :=
  (request updateCodec new "eth_blockNumber" [] deUsize ⟨0, true⟩).2

/-- As the answer of an HTTP post the notification completes request 1; as a
websocket frame it does not. -/
theorem http_completes_by_notification :
    ¬ PathsAgree updateCodec oneInFlight
      "\x7b\"method\":\"parity_subscription\",\"params\":\x7b\"subscription\":\"0x1\",\"result\":\"0x4dfbff\"\x7d\x7d" := by
  intro h
  obtain ⟨hpending, _⟩ := h.notification 1 (.string "0x4dfbff") rfl
  have hlookup := congrArg (AList.lookup 1) hpending
  exact absurd hlookup (by decide)

end Client

end Ethereyum
