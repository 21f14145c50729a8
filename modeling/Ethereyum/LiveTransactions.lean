/-
# `LiveTransactions` — the stream of a list of transactions, over its client

`Live.TransactionStream` is to `TransactionStream` what `Live.BlockStream` is to `BlockStream`: its
queue holds the futures of `get_transactions`.

Of a block stream it is known that every block of the range came through, and some blocks may come
twice.  Here nothing is asked for again, so that the account is one of positions of the list: what
is yielded are the server's answers to the calls for distinct positions, and when nothing was
lost on the way, for all of them (`transactions_from_server`).
-/
import Ethereyum.LiveStream
import Ethereyum.TransactionStream

namespace Ethereyum

/-- `get_transactions`. -/
def Client.getTransactions {H256 Transaction : Type} (ser : H256 → Value)
    (de : Value → Except Error (Option Transaction)) (c : Client) (txns : List H256)
    (sent : Bool) : YumBatchFuture (Option Transaction) × Client :=
  c.batchRequest (txns.map fun tx => ⟨"eth_getTransactionByHash", [ser tx], de⟩) sent

namespace Live

/-! ## The stream -/

/-- `TransactionStream`, without its client. -/
structure TransactionStream (H256 Transaction : Type) where
  txList : List H256
  bufferSize : Nat
  batchSize : Nat
  queue : List (Queued Transaction)

namespace TransactionStream
variable {H256 Transaction : Type}

/-- `TransactionStream::new`. -/
def new (txns : List H256) : TransactionStream H256 Transaction :=
  { txList := txns, batchSize := 10, bufferSize := 5, queue := [] }

def queueCapacity (s : TransactionStream H256 Transaction) : Option Nat :=
  checkedMul s.bufferSize s.batchSize

def halfCapacity (s : TransactionStream H256 Transaction) : Option Nat :=
  s.queueCapacity.map (· / 2)

def remainingCapacity (s : TransactionStream H256 Transaction) : Option Nat := do
  let capacity ← s.queueCapacity
  let free ← checkedSub capacity s.queue.length
  checkedSub free 1

/-- `self.queue.pop_front()`. -/
def pop (s : TransactionStream H256 Transaction) (c : Client) :
    Option (Queued Transaction) × TransactionStream H256 Transaction × Client :=
  ((popFront s.queue).1, { s with queue := (popFront s.queue).2 }, c)

section next
variable (ser : H256 → Value) (de : Value → Except Error (Option Transaction))

/-- `TransactionStream::next`. -/
def next (s : TransactionStream H256 Transaction) (c : Client) (sent : Bool)
    (stamps : Nat → Nat) :
    Option (Option (Queued Transaction) × TransactionStream H256 Transaction × Client) := do
  if s.txList.isEmpty && s.queue.isEmpty then
    return (none, s, c)
  else if s.txList.isEmpty && !s.queue.isEmpty then
    return s.pop c
  else
    let half ← s.halfCapacity
    if s.queue.length > half then
      return s.pop c
    else
      let remaining ← s.remainingCapacity
      let getThisMany := min s.txList.length remaining
      let (thisBatch, txList) := Ethereyum.TransactionStream.takeBatch getThisMany s.txList []
      let (futs, c) := c.getTransactions ser de thisBatch sent
      return { s with txList, queue := pushFutures stamps s.queue futs }.pop c

/-- `TransactionStream::poll`, in its two parts. -/
def ops : LiveOps (TransactionStream H256 Transaction) Transaction where
  next s c sent stamps := s.next ser de c sent stamps
  yield s _ := some s
  keep s item := { s with queue := s.queue ++ [item] }

end next

/-! ## Its tickets -/

/-- The stream with tickets for its futures. -/
def ticketed (s : TransactionStream H256 Transaction) (queue : List (Nat × Ticket H256))
    (asked : List H256) : Ethereyum.TransactionStream H256 :=
  { txList := s.txList, bufferSize := s.bufferSize, batchSize := s.batchSize, queue, asked }

/-- The element of a batch that asks for a transaction. -/
def batchItem (ser : H256 → Value) (de : Value → Except Error (Option Transaction)) (tx : H256) :
    BatchItem (Option Transaction) :=
  ⟨"eth_getTransactionByHash", [ser tx], de⟩

end TransactionStream

end Live

/-- The stream over an environment, in the two parts of its poll. -/
def TransactionStream.ticketOps (H256 Transaction : Type) :
    TicketOps (TransactionStream H256) H256 Transaction where
  next := TransactionStream.next
  yield s _ := some s
  keep s item := { s with queue := s.queue ++ [item] }

theorem TransactionStream.ticketOps_machine {H256 Transaction : Type} :
    (ticketOps H256 Transaction).machine = machine H256 Transaction := by
  unfold TicketOps.machine machine
  congr 1
  funext s env
  unfold TransactionStream.poll
  refine congrArg _ (funext ?_)
  rintro ⟨_ | item, s'⟩
  · rfl
  · have hsettle : (ticketOps H256 Transaction).settle s' item (env.fate item) =
        some (s'.settle item (env.fate item)) := by
      cases env.fate item <;> rfl
    simp only [hsettle, Option.map_some]
    rfl

namespace Live.TransactionStream

section matching
variable {H256 Transaction : Type} {ser : H256 → Value}
  {de : Value → Except Error (Option Transaction)}
  {s s' : TransactionStream H256 Transaction} {c c' : Client} {sent : Bool} {stamps : Nat → Nat}
  {r : Option (Queued Transaction)}

/-- The stream with as many tickets as futures has as much room. -/
theorem ticketed_room {queue : List (Nat × Ticket H256)} (asked : List H256)
    (hlen : queue.length = s.queue.length) : queue.isEmpty = s.queue.isEmpty ∧
      (s.ticketed queue asked).remainingCapacity = s.remainingCapacity := by
  constructor
  · rw [Bool.eq_iff_iff, List.isEmpty_iff_length_eq_zero, List.isEmpty_iff_length_eq_zero, hlen]
  · simp only [Ethereyum.TransactionStream.remainingCapacity, remainingCapacity, ticketed, hlen]
    rfl

/-- What a call of `next` does, to the futures and to their tickets. -/
theorem next_cases (h : s.next ser de c sent stamps = some (r, s', c')) :
    ((r, s', c') = (none, s, c) ∧ ∀ queue asked, queue.length = s.queue.length →
      ∀ env : PollEnv H256 Transaction,
        (s.ticketed queue asked).next env = some (none, s.ticketed queue asked)) ∨
    ((r, s', c') = s.pop c ∧ ∀ queue asked, queue.length = s.queue.length →
      ∀ env : PollEnv H256 Transaction,
        (s.ticketed queue asked).next env = some (s.ticketed queue asked).pop) ∨
    ∃ batch txList, batch ++ txList = s.txList ∧
      (r, s', c') = TransactionStream.pop
        { s with
          txList := txList,
          queue := pushFutures stamps s.queue (c.getTransactions ser de batch sent).1 }
        (c.getTransactions ser de batch sent).2 ∧
      ∀ queue asked, queue.length = s.queue.length → ∀ env : PollEnv H256 Transaction,
        (s.ticketed queue asked).next env = some (Ethereyum.TransactionStream.pop
          { s.ticketed (env.push queue (ticketsFrom asked.length batch)) (asked ++ batch) with
            txList := txList }) := by
  have hhalf : ∀ queue asked, (s.ticketed queue asked).halfCapacity = s.halfCapacity :=
    fun _ _ => rfl
  cases hlist : s.txList.isEmpty with
  | true =>
      cases hdrained : s.queue.isEmpty with
      | true =>
          refine Or.inl ⟨?_, fun queue asked hlen env => ?_⟩
          · simpa [next, hlist, hdrained] using h.symm
          · simp [Ethereyum.TransactionStream.next, ticketed, hlist,
              (ticketed_room asked hlen).1, hdrained]
      | false =>
          refine Or.inr (Or.inl ⟨?_, fun queue asked hlen env => ?_⟩)
          · simpa [next, hlist, hdrained] using h.symm
          · simp [Ethereyum.TransactionStream.next, ticketed, hlist,
              (ticketed_room asked hlen).1, hdrained]
  | false =>
      cases hcapacity : s.halfCapacity with
      | none => simp [next, hlist, hcapacity] at h
      | some half =>
          by_cases hfull : s.queue.length > half
          · refine Or.inr (Or.inl ⟨?_, fun queue asked hlen env => ?_⟩)
            · simpa [next, hlist, hcapacity, hfull] using h.symm
            · simp only [Ethereyum.TransactionStream.next, hhalf, hcapacity]
              simp [ticketed, hlist, hlen, hfull]
          · cases hfree : s.remainingCapacity with
            | none => simp [next, hlist, hcapacity, hfull, hfree] at h
            | some remaining =>
                refine Or.inr (Or.inr ⟨s.txList.take (min s.txList.length remaining),
                  s.txList.drop (min s.txList.length remaining), List.take_append_drop _ _, ?_,
                  fun queue asked hlen env => ?_⟩)
                · simpa [next, hlist, hcapacity, hfull, hfree,
                    Ethereyum.TransactionStream.takeBatch_eq] using h.symm
                · simp only [Ethereyum.TransactionStream.next, hhalf, hcapacity,
                    (ticketed_room asked hlen).2, hfree]
                  simp [ticketed, hlist, hlen, hfull, Ethereyum.TransactionStream.takeBatch_eq,
                    Ethereyum.TransactionStream.getTransactions]

end matching

/-- A stream over `txns` and the stream of its tickets. -/
def Ticketed {H256 Transaction : Type} (ser : H256 → Value)
    (de : Value → Except Error (Option Transaction)) (txns : List H256)
    (made : List (YumFuture (Option Transaction))) (c : Client)
    (s : TransactionStream H256 Transaction) (t : Ethereyum.TransactionStream H256) : Prop :=
  ∃ queue asked, t = s.ticketed queue asked ∧
    Mirrors (batchItem ser de) c made s.queue queue asked ∧ asked ++ s.txList = txns

section carries
variable {H256 Transaction : Type} {ser : H256 → Value}
  {de : Value → Except Error (Option Transaction)} {txns : List H256}
  {made : List (YumFuture (Option Transaction))} {c c' : Client}
  {s s' : TransactionStream H256 Transaction} {t : Ethereyum.TransactionStream H256} {sent : Bool}
  {stamps : Nat → Nat} {r : Option (Queued Transaction)}

theorem sends (h : s.next ser de c sent stamps = some (r, s', c')) :
    c' = c ∨ ∃ keys : List H256, c' = (c.batchRequest (keys.map (batchItem ser de)) sent).2 := by
  rcases next_cases h with ⟨heq, _⟩ | ⟨heq, _⟩ | ⟨batch, _, _, heq, _⟩
  · cases heq
    exact Or.inl rfl
  · cases heq
    exact Or.inl rfl
  · cases heq
    exact Or.inr ⟨batch, rfl⟩

theorem next_ticketed (hnumbered : c.Numbered) (h : Ticketed ser de txns made c s t)
    (hnext : s.next ser de c sent stamps = some (r, s', c')) :
    ∃ made' r' t', made <+: made' ∧ Ticketed ser de txns made' c' s' t' ∧
      Option.Rel (Mirror made') r r' ∧
      ∀ env : PollEnv H256 Transaction, env.Stamped stamps t.asked.length →
        t.next env = some (r', t') := by
  obtain ⟨queue, asked, rfl, hmirrors, hrequested⟩ := h
  have hlen := hmirrors.queue.length_eq.symm
  rcases next_cases hnext with
    ⟨heq, hticket⟩ | ⟨heq, hticket⟩ | ⟨batch, txList, hbatch, heq, hticket⟩
  · cases heq
    exact ⟨made, none, _, List.prefix_rfl, ⟨queue, asked, rfl, hmirrors, hrequested⟩, .none,
      fun env _ => hticket queue asked hlen env⟩
  · cases heq
    obtain ⟨hfront, hrest⟩ := hmirrors.pop
    exact ⟨made, _, _, List.prefix_rfl, ⟨_, asked, rfl, hrest, hrequested⟩, hfront,
      fun env _ => hticket queue asked hlen env⟩
  · -- a batch goes out
    obtain ⟨_, hgrows, futs, hwaiting, hfuts⟩ :=
      made_batchRequest hnumbered (batchItem ser de) batch sent
    have hsent : (c.getTransactions ser de batch sent).1 = .waiting futs := hwaiting
    rw [hsent] at heq
    cases heq
    obtain ⟨hfront, hrest⟩ := (hmirrors.push hgrows hfuts stamps).pop
    refine ⟨made ++ futs, _, _, List.prefix_append _ _, ⟨_, asked ++ batch, rfl, hrest, ?_⟩, hfront,
      fun env hstamped => ?_⟩
    · rw [List.append_assoc, hbatch, hrequested]
    · have hpushed : env.push queue (ticketsFrom asked.length batch) =
          pushTickets stamps queue asked.length batch := hstamped.push_eq queue batch
      rw [hticket queue asked hlen env, hpushed]
      rfl

/-- The stream over its client is carried out by the stream of its tickets. -/
theorem carries (ser : H256 → Value) (de : Value → Except Error (Option Transaction))
    (txns : List H256) : Carries (ops ser de)
      (Ethereyum.TransactionStream.ticketOps H256 Transaction) (batchItem ser de)
      Ethereyum.TransactionStream.asked (Ticketed ser de txns) where
  sends hnext := sends hnext
  made := by
    rintro made c s t ⟨queue, asked, rfl, hmirrors, _⟩
    exact hmirrors.futures
  grows := by
    rintro made c c' s t ⟨queue, asked, rfl, hmirrors, hrequested⟩ hgrows
    exact ⟨queue, asked, rfl, hmirrors.grows hgrows, hrequested⟩
  next hnumbered hrel hnext := next_ticketed hnumbered hrel hnext
  yield := by
    rintro made c s s' t b hrel hyield
    cases hyield
    exact ⟨t, rfl, hrel⟩
  keep := by
    rintro made c s t q k ⟨queue, asked, rfl, hmirrors, hrequested⟩ hmirror
    refine ⟨queue ++ [k], asked, rfl, ⟨hmirrors.futures, ?_⟩, hrequested⟩
    exact List.rel_append hmirrors.queue (.cons hmirror .nil)

end carries

/-! ## What the stream yields -/

/-- The transaction is the server's answer to a call for the hash `h`. -/
def Fetched {H256 Transaction : Type} (A : Server) (ser : H256 → Value)
    (de : Value → Except Error (Option Transaction)) (c : Client) (h : H256) (b : Transaction) :
    Prop :=
  ∃ call ∈ c.calls, call.method = "eth_getTransactionByHash" ∧ call.params = some [ser h] ∧
    Own A call de (.ok (some b))

/-- The server has every transaction that it is asked for. -/
def Complete {H256 Transaction : Type} (A : Server) (ser : H256 → Value)
    (de : Value → Except Error (Option Transaction)) : Prop :=
  ∀ call h, call.method = "eth_getTransactionByHash" → call.params = some [ser h] →
    ¬ Own A call de (.ok none)

end Live.TransactionStream

namespace TransactionStream

section yielded
variable {H256 Transaction : Type} {txns : List H256} {s : TransactionStream H256}
  {tr : List (PollEnv H256 Transaction × PollOut H256 Transaction)}

/-- The futures that were ready with a transaction, in the order of their polls. -/
def yielded (tr : List (PollEnv H256 Transaction × PollOut H256 Transaction)) :
    List (Ticket H256 × Transaction) :=
  (exits tr).filterMap fun e => match e.2 with
    | .yielded b => some (e.1, b)
    | _ => none

/-- A future that left was polled. -/
theorem polled_of_mem_exits {k : Ticket H256} {fate : Fate Transaction}
    (h : (k, fate) ∈ exits tr) : ∃ e ∈ tr, e.2.polled = some (k, fate) := by
  obtain ⟨e, he, hpolled⟩ := List.mem_filterMap.mp h
  refine ⟨e, he, ?_⟩
  split at hpolled
  · cases hpolled
  · exact hpolled

theorem mem_yielded {k : Ticket H256} {b : Transaction} :
    (k, b) ∈ yielded tr ↔ (k, .yielded b) ∈ exits tr := by
  constructor
  · intro h
    obtain ⟨⟨k', fate⟩, hexit, hyielded⟩ := List.mem_filterMap.mp h
    cases fate with
    | yielded b' =>
        cases hyielded
        exact hexit
    | null => cases hyielded
    | failed e => cases hyielded
    | late => cases hyielded
    | kept => cases hyielded
  · exact fun h => List.mem_filterMap.mpr ⟨_, h, rfl⟩

/-- What a stream yields are these transactions. -/
theorem yields_eq_yielded (hrun : (machine H256 Transaction).Run (new txns) tr s) :
    yields tr = (yielded tr).map Prod.snd := by
  rw [← ticketOps_machine] at hrun
  rw [yielded, exits, List.filterMap_filterMap, List.map_filterMap]
  refine List.filterMap_congr ?_
  intro e he
  rcases TicketOps.out_cases hrun he with hout | ⟨item, fate, hout⟩
  · rw [hout]
    rfl
  · rw [hout]
    cases fate <;> rfl

theorem seqs_ticketsFrom (keys : List H256) :
    (ticketsFrom 0 keys).map Ticket.seq = List.range keys.length := by
  refine List.ext_getElem (by simp) ?_
  intro i _ _
  simp [ticketsFrom]

/-- Each position of the list is yielded from once. -/
theorem Ledger.nodup_positions (h : Ledger txns tr s) :
    ((yielded tr).map fun e => e.1.seq).Nodup := by
  have hseqs : (((exits tr).map (·.1)).map Ticket.seq).Nodup := by
    have hplaced := h.placed.map Ticket.seq
    rw [seqs_ticketsFrom, List.map_append] at hplaced
    exact (List.nodup_append.mp (hplaced.nodup_iff.mpr List.nodup_range)).2.1
  refine hseqs.sublist ?_
  unfold yielded
  induction exits tr with
  | nil => exact List.Sublist.slnil
  | cons e es ih =>
      obtain ⟨k, fate⟩ := e
      cases fate with
      | yielded b => exact ih.cons_cons k.seq
      | null => exact ih.cons k.seq
      | failed e => exact ih.cons k.seq
      | late => exact ih.cons k.seq
      | kept => exact ih.cons k.seq

/-- Once the stream has ended every future has left. -/
theorem mem_exits_of_done (hrun : (machine H256 Transaction).Run (new txns) tr s)
    (hdone : .ok (.ready none) ∈ tr.map fun e => e.2.result) {i : Nat} (hi : i < txns.length) :
    ∃ fate, (⟨i, txns[i]⟩, fate) ∈ exits tr := by
  obtain ⟨⟨env, out⟩, hmem, hresult⟩ := List.mem_map.mp hdone
  obtain ⟨pre, post, rfl⟩ := List.append_of_mem hmem
  obtain ⟨s₁, hpre, hpost⟩ := hrun.split
  obtain ⟨s₂, hstep, _⟩ := Mealy.run_cons.mp hpost
  have h := ledger_of_run hpre
  -- nothing was left to request or to wait for
  have hempty : s₁.txList = [] ∧ s₁.queue = [] := by
    rcases poll_eq h.bounded env with ⟨hlist, hqueue, _⟩ | ⟨item, rest, _, hpoll⟩
    · exact ⟨hlist, hqueue⟩
    · have hout := congrArg (Option.map Prod.fst) (hpoll.symm.trans hstep)
      obtain rfl := Option.some.inj hout
      exact absurd hresult (Fate.result_ne_done _)
  have hplaced := h.placed
  have hrequested := h.requested
  rw [hempty.1, List.append_nil] at hrequested
  rw [hempty.2, hrequested, List.map_nil, List.nil_append] at hplaced
  have hticket : (⟨i, txns[i]⟩ : Ticket H256) ∈ ticketsFrom 0 txns :=
    List.mem_mapIdx.mpr ⟨i, hi, by simp⟩
  obtain ⟨⟨k, fate⟩, hexit, rfl⟩ := List.mem_map.mp (hplaced.mem_iff.mpr hticket)
  exact ⟨fate, by rw [exits_append]; exact List.mem_append_left _ hexit⟩

end yielded

end TransactionStream

open Live.TransactionStream

section streams
variable {H256 Transaction : Type} {ser : H256 → Value}
  {de : Value → Except Error (Option Transaction)} {C : Codec} {A : Server} {txns : List H256}
  {c : Client} {past : List (Op × List Registration)}
  {tr : List (LiveEvent × Option (Poll (Option Transaction)))}
  {ls : LiveStream (Live.TransactionStream H256 Transaction) Transaction}

/-- **A transaction stream yields the server's answers to its calls, each position of its list at
most once; and all of the list, when nothing was lost.**  Over a client that talks to an honest
server, while the counter makes no full turn.  Nothing was lost when the stream has ended, no poll
failed, no poll came too late, and the server has every transaction. -/
theorem transactions_from_server (hpast : (history C).Run Client.new past c)
    (hpast' : (history C).Along (Honest A) Client.new past)
    (hrun : ((ops ser de).machine C).Run ⟨new txns, none, c⟩ tr ls)
    (hrun' : ((ops ser de).machine C).Along (HonestUnder A) ⟨new txns, none, c⟩ tr)
    (hturn : ls.client.oneshots.length ≤ word) :
    ∃ positions : List Nat, positions.Nodup ∧
      List.Forall₂ (fun b i => ∃ h, txns[i]? = some h ∧ Fetched A ser de ls.client h b)
        (itemsOf (results tr)) positions ∧
      (.ok (.ready none) ∈ results tr → (∀ e, .error e ∉ results tr) → Complete A ser de →
        ((ops ser de).machine C).Along InTime ⟨new txns, none, c⟩ tr →
          positions.Perm (List.range txns.length)) := by
  obtain ⟨tr', t', hticket, hview, made, hlive, _, hearned, htimely⟩ :=
    ((carries ser de txns).simulation_earned A C
      (((ops ser de).machine C).Along InTime ⟨new txns, none, c⟩ tr)).run
      ⟨[], ⟨Client.numbered_of_run hpast, fun _ => ⟨[], [], rfl, ⟨.nil, .nil⟩, rfl⟩, by simp⟩,
        exchanged_of_run hpast hpast', fun _ e he => absurd he List.not_mem_nil,
        fun _ e he => absurd he List.not_mem_nil⟩ hrun
      fun pre post e o ls' htr hpre => ⟨hrun' pre post e o ls' htr hpre,
        fun hintime => hintime pre post e o ls' htr hpre⟩
  rw [TransactionStream.ticketOps_machine] at hticket
  have hresults : tr'.map (fun e => e.2.result) = results tr :=
    (observed_ticketResult tr').symm.trans hview
  have hledger := TransactionStream.ledger_of_run hticket
  -- what polling a ticket made ready, the server answered to its call
  have hanswer : ∀ k fate x, (k, fate) ∈ TransactionStream.exits tr' →
      fate.answer = .ok (.ready x) → ∃ h call, txns[k.seq]? = some h ∧ call ∈ ls.client.calls ∧
        call.method = "eth_getTransactionByHash" ∧ call.params = some [ser h] ∧
        Own A call de (.ok x) := by
    intro k fate x hexit hready
    obtain ⟨e, he, hpolled⟩ := TransactionStream.polled_of_mem_exits hexit
    obtain ⟨s₁, t₁, h, call, ⟨_, asked, rfl, _, hrequested⟩, hasked, hcall, hmethod, hparams,
      hown⟩ :=
      (carries ser de txns).call_of_earned hlive (hearned hturn e he k fate x hpolled hready)
    refine ⟨h, call, ?_, hcall, hmethod, hparams, hown⟩
    have hplace : asked[k.seq]? = some h := hasked
    rw [← hrequested, List.getElem?_append_left (List.getElem?_eq_some_iff.mp hplace).1, hplace]
  refine ⟨(TransactionStream.yielded tr').map fun e => e.1.seq, hledger.nodup_positions, ?_, ?_⟩
  · rw [← hresults, ← yields_eq, TransactionStream.yields_eq_yielded hticket,
      List.forall₂_map_left_iff, List.forall₂_map_right_iff, List.forall₂_same]
    rintro ⟨k, b⟩ hmem
    obtain ⟨h, call, hplace, hfetched⟩ :=
      hanswer k (.yielded b) (some b) (TransactionStream.mem_yielded.mp hmem) rfl
    exact ⟨h, hplace, call, hfetched⟩
  · intro hdone hfailed hcomplete hintime
    refine (List.perm_ext_iff_of_nodup hledger.nodup_positions List.nodup_range).mpr ?_
    intro i
    rw [List.mem_map, List.mem_range]
    constructor
    · rintro ⟨⟨k, b⟩, hmem, rfl⟩
      obtain ⟨h, _, hplace, _⟩ :=
        hanswer k (.yielded b) (some b) (TransactionStream.mem_yielded.mp hmem) rfl
      exact (List.getElem?_eq_some_iff.mp hplace).1
    · intro hi
      obtain ⟨fate, hexit⟩ := TransactionStream.mem_exits_of_done hticket (hresults ▸ hdone) hi
      cases fate with
      | yielded b => exact ⟨_, TransactionStream.mem_yielded.mpr hexit, rfl⟩
      | null =>
          obtain ⟨h, call, _, _, hmethod, hparams, hown⟩ := hanswer _ .null none hexit rfl
          exact absurd hown (hcomplete call h hmethod hparams)
      | failed e =>
          obtain ⟨entry, he, hpolled⟩ := TransactionStream.polled_of_mem_exits hexit
          refine absurd ?_ (hfailed e)
          rw [← TransactionStream.ticketOps_machine] at hticket
          rcases TicketOps.out_cases hticket he with hout | ⟨item, fate, hout⟩
          · rw [hout] at hpolled
            cases hpolled
          · rw [hout] at hpolled
            obtain ⟨_, rfl⟩ := Prod.mk.inj (Option.some.inj hpolled)
            rw [← hresults]
            exact List.mem_map.mpr ⟨entry, he, by rw [hout]; rfl⟩
      | late =>
          obtain ⟨e, he, hpolled⟩ := TransactionStream.polled_of_mem_exits hexit
          exact absurd hpolled (htimely hintime e he _)
      | kept => exact absurd rfl (TransactionStream.ne_kept_of_mem_exits hexit)

end streams

/-- A transaction, or none. -/
def readTransaction : Value → Except Error (Option String)
  | .null => .ok none
  | v => (deString v).map some

/-- A server that knows a transaction by its hash. -/
def mirrorServer : Server := fun call rv =>
  ∃ h, call.params = some [.string h] ∧ rv = .ok (.string h)

/-- The stream of two transactions, which the server answers in one frame, the second first. -/
def twoTransactions : List LiveEvent :=
  [.next true fun _ => 0,
   .op (.frame [.success 2 (.string "0xb"), .success 1 (.string "0xa")]),
   .settle 1,
   .next true fun _ => 1,
   .settle 2,
   .next true fun _ => 2]

theorem two_transactions_streamed : ∃ tr ls,
    ((ops Value.string readTransaction).machine Client.updateCodec).Run
      ⟨new ["0xa", "0xb"], none, Client.new⟩ tr ls ∧ tr.map Prod.fst = twoTransactions ∧
    ∃ positions : List Nat, List.Forall₂ (fun b i => ∃ h, ["0xa", "0xb"][i]? = some h ∧
      Fetched mirrorServer Value.string readTransaction ls.client h b)
      ["0xa", "0xb"] positions ∧ positions.Perm [0, 1] := by
  have hrun : ((ops Value.string readTransaction).machine Client.updateCodec).Run
      ⟨new ["0xa", "0xb"], none, Client.new⟩ _ _ :=
    Mealy.run_of_exec (show ((ops Value.string readTransaction).machine Client.updateCodec).exec _
      twoTransactions = some (_, _) from rfl)
  obtain ⟨positions, _, hanswers, hall⟩ := transactions_from_server (A := mirrorServer)
    Mealy.Run.nil (Mealy.along_of_forall (by simp)) hrun (by
      refine Mealy.along_cons trivial rfl (Mealy.along_cons ?_ rfl (Mealy.along_cons trivial rfl
        (Mealy.along_cons trivial rfl (Mealy.along_cons trivial rfl
          (Mealy.along_single trivial)))))
      intro r hr _
      rcases List.mem_cons.mp hr with rfl | hr
      · exact ⟨buildRequest 2 "eth_getTransactionByHash" [.string "0xb"],
          List.mem_cons_of_mem _ List.mem_cons_self, rfl, "0xb", rfl, rfl⟩
      · obtain rfl := List.mem_singleton.mp hr
        exact ⟨buildRequest 1 "eth_getTransactionByHash" [.string "0xa"], List.mem_cons_self, rfl,
          "0xa", rfl, rfl⟩) (by decide)
  refine ⟨_, _, hrun, rfl, positions, hanswers, hall ?_ ?_ ?_ ?_⟩
  · exact List.mem_cons_of_mem _ (List.mem_cons_of_mem _ List.mem_cons_self)
  · intro e he
    have hresults : Except.error e ∈ [(.ok (.ready (some "0xa")) : Poll (Option String)),
      .ok (.ready (some "0xb")), .ok (.ready none)] := he
    simp at hresults
  · rintro call h _ _ ⟨rv, ⟨h', _, rfl⟩, hread⟩
    cases hread
  · -- both futures are ready when they are polled
    refine Mealy.along_cons trivial rfl (Mealy.along_cons trivial rfl (Mealy.along_cons ?_ rfl
      (Mealy.along_cons trivial rfl (Mealy.along_cons ?_ rfl (Mealy.along_single trivial)))))
    · intro q hq hpending
      cases hq
      cases hpending
    · intro q hq hpending
      cases hq
      cases hpending

end Ethereyum
