/-
# `FailedSend` — what a call leaves behind when its send fails

Both registration paths write their tables before they send, and neither takes
anything back: the caller of a `request` or a `batch_request` whose send fails
gets a future that fails at once, and the entries stay as they were made before
the send (`request_client`, `batchRequest_client` do not mention its outcome).
The entries of a `request` go with the sweep that finds its id in `ts`; those of
a batch are in no bucket and stay.
-/
import Ethereyum.Tables

namespace Ethereyum

namespace Client

/-- `pending` and `ts` hold what they held before. -/
structure NoTrace (before after : Client) : Prop where
  pending : ∀ id, after.pending.lookup id = before.pending.lookup id
  ts : ∀ second, after.ts.lookup second = before.ts.lookup second

/-- `pending` after `n` registrations: the ids from the counter on, each with a
sender of its own. -/
def registered (c : Client) (n : Nat) : HashMap Nat Oneshot :=
  (List.range n).foldl
    (fun pending i => pending.insert ((c.ids + i) % word) (c.oneshots.length + i)) c.pending

/-- Nothing but the id counter, the oneshots and the wire differs. -/
structure OnlyCounts (before after : Client) (n : Nat) : Prop where
  ids : after.ids = (before.ids + n) % word
  subscriptions : after.subscriptions = before.subscriptions
  channels : after.channels = before.channels

theorem registered_succ (c : Client) (n : Nat) : c.registered (n + 1) =
    (c.registered n).insert ((c.ids + n) % word) (c.oneshots.length + n) := by
  simp only [registered, List.range_succ, List.foldl_append, List.foldl_cons, List.foldl_nil]

/-- `n` registrations in a row, table by table. -/
theorem iterate_register_tables {c : Client} (hids : c.ids < word) (n : Nat) :
    (register^[n] c).pending = c.registered n ∧ (register^[n] c).ts = c.ts ∧
      OnlyCounts c (register^[n] c) n := by
  induction n with
  | zero =>
      refine ⟨rfl, rfl, ?_, rfl, rfl⟩
      exact (Nat.mod_eq_of_lt hids).symm
  | succ n ih =>
      obtain ⟨hpending, hts, hcounts⟩ := ih
      rw [Function.iterate_succ_apply']
      refine ⟨?_, ?_, ?_, ?_, ?_⟩
      · rw [register_pending, hpending, hcounts.ids, iterate_register_oneshots_length,
          registered_succ]
      · rw [register_ts, hts]
      · rw [register_ids, hcounts.ids, Nat.mod_add_mod, Nat.add_assoc]
      · rw [register_subscriptions, hcounts.subscriptions]
      · rw [register_channels, hcounts.channels]

/-- **A call whose send fails leaves the entries it registered**: a `request` its id
in `pending` and in the bucket of the current second, a `batch_request` its ids in
`pending` only, and so nothing at all when it has no requests.  Its future fails.
The counter is a `usize`. -/
theorem failed_send_leaves_entries {α : Type} (C : Codec) (c : Client) :
    (∀ (method : String) (params : List Value) (de : Value → Except Error α) (now : Int),
      (∃ e, (c.request C method params de ⟨now, false⟩).1 = .error e) ∧
      (c.request C method params de ⟨now, false⟩).2.pending =
        c.pending.insert c.ids c.oneshots.length ∧
      (∀ second, (c.request C method params de ⟨now, false⟩).2.ts.lookup second =
        if second = now then some ((c.ts.lookup now).getD [] ++ [c.ids])
        else c.ts.lookup second) ∧
      OnlyCounts c (c.request C method params de ⟨now, false⟩).2 1) ∧
    (c.ids < word → ∀ requests : List (BatchItem α),
      (∃ futs, (c.batchRequest requests false).1 = .waiting futs ∧
        futs = requests.map fun _ => .error (.yumError "Couldn't send request")) ∧
      (c.batchRequest requests false).2.pending = c.registered requests.length ∧
      (c.batchRequest requests false).2.ts = c.ts ∧
      OnlyCounts c (c.batchRequest requests false).2 requests.length) := by
  constructor
  · intro method params de now
    refine ⟨⟨_, rfl⟩, request_pending C c method params de _,
      request_ts C c method params de _, ?_⟩
    rw [request_client]
    refine ⟨?_, ?_, ?_⟩
    · exact register_ids c
    · exact register_subscriptions c
    · exact register_channels c
  · intro hids requests
    obtain ⟨hpending, hts, hcounts⟩ := iterate_register_tables hids requests.length
    refine ⟨⟨_, rfl, ?_⟩, ?_, ?_, ?_⟩
    · rw [registerBatch_responses]
      refine List.ext_getElem (by simp) ?_
      intro i _ _
      simp
    · rw [batchRequest_client]
      exact hpending
    · rw [batchRequest_client]
      exact hts
    · rw [batchRequest_client]
      exact ⟨hcounts.ids, hcounts.subscriptions, hcounts.channels⟩

/-- The two requests of a failed batch of a new client stay in `pending`. -/
theorem failed_batch_stays_pending :
    (new.batchRequest [⟨"eth_getCode", [], deString⟩, ⟨"eth_getCode", [], deString⟩]
      false).2.pending.lookup 2 = some 1 := by
  have hbatch := (failed_send_leaves_entries updateCodec new).2 (by decide)
    [⟨"eth_getCode", [], deString⟩, ⟨"eth_getCode", [], deString⟩]
  rw [hbatch.2.1]
  rfl

/-- A request of a new client whose send fails stays in `pending` under id 1. -/
theorem failed_request_leaves_trace : ¬ ∀ (C : Codec) (c : Client) (method : String)
    (params : List Value) (de : Value → Except Error Nat) (now : Int),
    NoTrace c (c.request C method params de ⟨now, false⟩).2 := by
  intro h
  have htrace := (h updateCodec new "eth_blockNumber" [] deUsize 0).pending 1
  exact absurd htrace (by decide)

end Client

end Ethereyum
