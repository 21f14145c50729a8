/-
# `LiveStream` — the lazy streams over the client they really have

`BlockStream` and `TransactionStream` know their futures by tickets, and leave to the
environment what polling one returns.  Here the queue holds the futures that `batch_request`
returned, and polling one reads the oneshots of the shared client, to which everybody else may do
anything: between two polls, and inside a poll between `next` and the future it took.

    next      takes a future from the queue, or finds the stream ended
    settle    polls it, and yields, gives up, drops it or puts it back
    op        somebody else uses the client, or a response comes in

Every such run is a run of the ticket machine, with the same results (`Carries.simulation`): the
ticket of a future is its place among all the futures made, `made`, and what the environment
answers is what that future's poll returned.  And what a stream yields is what the server
answered to a call that the stream made (`Carries.simulation_earned`).
-/
import Ethereyum.Lib.Simulation
import Ethereyum.Exchange
import Ethereyum.LazyStream

namespace Ethereyum

/-! ## The machine -/

/-- A future of the queue, with the instant it was pushed at. -/
abbrev Queued (β : Type) := Nat × YumFuture (Option β)

/-- What a stream does with a future that it took, by what polling it came to: `Item` is what its
queue holds. -/
structure StreamOps (S Item β : Type) where
  /-- an item comes through; `none` is a panic -/
  yield : S → β → Option S
  /-- `self.queue.push_back` -/
  keep : S → Item → S

/-- The rest of the body of `poll`. -/
def StreamOps.settle {S Item β : Type} (W : StreamOps S Item β) (s : S) (item : Item) :
    Fate β → Option S
  | .yielded b => W.yield s b
  | .kept => some (W.keep s item)
  | _ => some s

/-- A stream over its client. -/
structure LiveOps (S β : Type) extends StreamOps S (Queued β) β where
  /-- `next`; whether a batch it makes is sent, and the instants that its loop reads -/
  next : S → Client → Bool → (Nat → Nat) → Option (Option (Queued β) × S × Client)

/-- A stream over an environment. -/
structure TicketOps (T κ β : Type) extends StreamOps T (Nat × Ticket κ) β where
  next : PollEnv κ β → T → Option (Option (Nat × Ticket κ) × T)

/-- A stream and its client; `held` is the future that the poll in progress has taken. -/
structure LiveStream (S β : Type) where
  stream : S
  held : Option (Queued β)
  client : Client

inductive LiveEvent where
  | op (op : Op)
  | next (sent : Bool) (stamps : Nat → Nat)
  | settle (now : Nat)

/-- The loop that pushes the futures of a batch. -/
def pushFutures {β : Type} (stamps : Nat → Nat) (queue : List (Queued β)) :
    YumBatchFuture (Option β) → List (Queued β)
  | .waiting futs => queue ++ futs.mapIdx fun i f => (stamps i, f)
  | _ => queue

/-- The body of the `while let`, up to what becomes of the stream. -/
def fateOf {β : Type} (now : Nat) (item : Queued β) (o : Oneshots) :
    Fate β × YumFuture (Option β) :=
  match item.2.poll o with
  | (.error e, f) => (.failed e, f)
  | (.ok (.ready (some b)), f) => (.yielded b, f)
  | (.ok (.ready none), f) => (.null, f)
  | (.ok .notReady, f) => (if now - item.1 < fiveSeconds then .kept else .late, f)

theorem Fate.eq_yielded {β : Type} {fate : Fate β} {b : β}
    (h : fate.result = .ok (.ready (some b))) : fate = .yielded b := by
  cases fate with
  | yielded b' =>
      cases h
      rfl
  | null => cases h
  | failed e => cases h
  | late => cases h
  | kept => cases h

/-- What polling a future returned that had this fate. -/
def Fate.answer {β : Type} : Fate β → Poll (Option β)
  | .yielded b => .ok (.ready (some b))
  | .null => .ok (.ready none)
  | .failed e => .error e
  | _ => .ok .notReady

theorem fateOf_answer {β : Type} (now : Nat) (item : Queued β) (o : Oneshots) :
    (fateOf now item o).1.answer = (item.2.poll o).1 := by
  unfold fateOf
  rcases item.2.poll o with ⟨_ | _ | _, f⟩
  · rfl
  · rename_i b
    cases b <;> rfl
  · by_cases hage : now - item.1 < fiveSeconds <;> simp [Fate.answer, hage]

theorem fateOf_late {β : Type} {now : Nat} {item : Queued β} {o : Oneshots}
    (h : (fateOf now item o).1 = .late) : ¬ now - item.1 < fiveSeconds := by
  unfold fateOf at h
  split at h
  · cases h
  · cases h
  · cases h
  · intro hage
    simp [hage] at h

/-- The stream and everybody else, as a machine; a poll answers with its result. -/
def LiveOps.machine {S β : Type} (L : LiveOps S β) (C : Codec) :
    Mealy (LiveStream S β) LiveEvent (Option (Poll (Option β))) where
  step ls
    | .op op => ((history C).step ls.client op).map fun r => (none, { ls with client := r.2 })
    | .next sent stamps =>
        match ls.held with
        | some _ => none
        | none =>
            (L.next ls.stream ls.client sent stamps).map fun r =>
              match r with
              | (none, s, c) => (some (.ok (.ready none)), ⟨s, none, c⟩)
              | (some item, s, c) => (none, ⟨s, some item, c⟩)
    | .settle now =>
        match ls.held with
        | none => none
        | some item =>
            let (fate, fut) := fateOf now item ls.client.oneshots
            (L.settle ls.stream (item.1, fut) fate).map fun s =>
              (some fate.result, { ls with stream := s, held := none })

/-- A poll is `next`, and settling what it returned. -/
def TicketOps.machine {T κ β : Type} (P : TicketOps T κ β) :
    Mealy T (PollEnv κ β) (PollOut κ β) where
  step t env := (P.next env t).bind fun r =>
    match r with
    | (none, t) => some (.done, t)
    | (some item, t) =>
        (P.settle t item (env.fate item)).map fun t => (.of item (env.fate item), t)

/-- The results of a live trace. -/
def liveResult {β : Type} (e : LiveEvent × Option (Poll (Option β))) : List (Poll (Option β)) :=
  e.2.toList

/-- The results of a ticket trace. -/
def ticketResult {κ β : Type} (e : PollEnv κ β × PollOut κ β) : List (Poll (Option β)) :=
  [e.2.result]

/-- The items among the results of polls. -/
def itemsOf {β : Type} (results : List (Poll (Option β))) : List β :=
  results.filterMap fun r => match r with
    | .ok (.ready item) => item
    | _ => none

/-- What the polls of a live trace returned. -/
def results {β : Type} (tr : List (LiveEvent × Option (Poll (Option β)))) :
    List (Poll (Option β)) :=
  Mealy.observed liveResult tr

theorem observed_ticketResult {κ β : Type} (tr : List (PollEnv κ β × PollOut κ β)) :
    Mealy.observed ticketResult tr = tr.map fun e => e.2.result :=
  List.flatMap_pure_eq_map _ tr

theorem yields_eq {κ β : Type} (tr : List (PollEnv κ β × PollOut κ β)) :
    yields tr = itemsOf (tr.map fun e => e.2.result) := by
  rw [itemsOf, List.filterMap_map]
  rfl

/-! ## The client over a run -/

/-- Every oneshot has its call. -/
structure Client.Numbered (c : Client) : Prop where
  wellformed : c.Wellformed
  length : c.calls.length = c.oneshots.length

/-- What was made stays. -/
structure Client.Grows (c c' : Client) : Prop where
  oneshots : c.oneshots.length ≤ c'.oneshots.length
  calls : c.calls <+: c'.calls

namespace Client
variable {C : Codec} {c c' c'' : Client}

theorem Grows.refl (c : Client) : c.Grows c := ⟨le_rfl, List.prefix_rfl⟩

theorem Grows.trans (h : c.Grows c') (h' : c'.Grows c'') : c.Grows c'' :=
  ⟨h.oneshots.trans h'.oneshots, h.calls.trans h'.calls⟩

theorem Numbered.step {op : Op} {o : List Registration} (h : c.Numbered)
    (hstep : (history C).step c op = some (o, c')) : c'.Numbered ∧ c.Grows c' := by
  obtain ⟨more, hcalls, hlen, _⟩ := calls_step h.wellformed hstep
  refine ⟨⟨h.wellformed.step hstep, ?_⟩, history_oneshots_mono hstep, more, hcalls.symm⟩
  rw [hcalls, List.length_append, h.length, hlen]

theorem numbered_of_run {tr : List (Op × List Registration)}
    (hrun : (history C).Run Client.new tr c) : c.Numbered :=
  hrun.invariant (I := fun _ c => c.Numbered) ⟨wellformed_new, rfl⟩ fun _ h hstep =>
    (h.step hstep).1

end Client

/-! ## Futures and their requests -/

/-- The future that `batch_request` made for the request `k`: it failed to be sent, or it waits
for the answer to the call. -/
def MadeFor {κ β : Type} (item : κ → BatchItem (Option β)) (c : Client)
    (f : YumFuture (Option β)) (k : κ) : Prop :=
  (∃ e, f = .error e) ∨ ∃ tx call, f = .waitingFn tx (item k).de ∧ tx < c.oneshots.length ∧
    c.calls[tx]? = some call ∧ call.method = (item k).method ∧ call.params = some (item k).params

/-- The ticket of a queued future: its place among those made. -/
def Mirror {κ β : Type} (made : List (YumFuture (Option β))) (q : Queued β)
    (t : Nat × Ticket κ) : Prop :=
  q.1 = t.1 ∧ made[t.2.seq]? = some q.2

/-- A queue of futures and the queue of their tickets. -/
structure Mirrors {κ β : Type} (item : κ → BatchItem (Option β)) (c : Client)
    (made : List (YumFuture (Option β))) (queue : List (Queued β))
    (tickets : List (Nat × Ticket κ)) (asked : List κ) : Prop where
  futures : List.Forall₂ (MadeFor item c) made asked
  queue : List.Forall₂ (Mirror made) queue tickets

/-- The loop that pushes the futures of a batch, on tickets: those of `keys`, made after `n`
others. -/
def pushTickets {κ : Type} (stamps : Nat → Nat) (tickets : List (Nat × Ticket κ)) (n : Nat)
    (keys : List κ) : List (Nat × Ticket κ) :=
  tickets ++ keys.mapIdx fun i key => (stamps i, ⟨n + i, key⟩)

/-- The environment reads these instants, when the `n`-th and later futures are pushed. -/
def PollEnv.Stamped {κ β : Type} (env : PollEnv κ β) (stamps : Nat → Nat) (n : Nat) : Prop :=
  ∀ t : Ticket κ, n ≤ t.seq → env.stamp t = stamps (t.seq - n)

section made
variable {κ β : Type} {item : κ → BatchItem (Option β)} {c c' : Client}
  {f : YumFuture (Option β)} {k : κ} {made made' futs : List (YumFuture (Option β))}
  {queue : List (Queued β)} {tickets : List (Nat × Ticket κ)} {asked keys : List κ}

theorem MadeFor.grows (h : MadeFor item c f k) (hgrows : c.Grows c') : MadeFor item c' f k := by
  refine h.imp_right ?_
  rintro ⟨tx, call, hf, hlt, hcall, hmethod, hparams⟩
  refine ⟨tx, call, hf, Nat.lt_of_lt_of_le hlt hgrows.oneshots, ?_, hmethod, hparams⟩
  obtain ⟨rest, hrest⟩ := hgrows.calls
  rw [← hrest, List.getElem?_append_left (List.getElem?_eq_some_iff.mp hcall).1, hcall]

/-- A future that is not ready is put back as it was. -/
theorem MadeFor.kept (h : MadeFor item c f k) {o : Oneshots} {f' : YumFuture (Option β)}
    (hpoll : f.poll o = (.ok .notReady, f')) : f' = f := by
  rcases h with ⟨e, rfl⟩ | ⟨tx, _, rfl, _⟩
  · cases hpoll
  · simp only [YumFuture.poll, YumFuture.pollWaiting] at hpoll
    split at hpoll
    · cases hpoll
    · exact ((Prod.mk.inj hpoll).2).symm
    · split at hpoll <;> cases hpoll

theorem MadeFor.fateOf_kept {q : Queued β} (h : MadeFor item c q.2 k) {now : Nat} {o : Oneshots}
    (hfate : (fateOf now q o).1 = .kept) : (fateOf now q o).2 = q.2 := by
  unfold fateOf at hfate ⊢
  split at hfate
  · cases hfate
  · cases hfate
  · cases hfate
  · exact h.kept ‹_›

theorem Mirrors.grows (h : Mirrors item c made queue tickets asked) (hgrows : c.Grows c') :
    Mirrors item c' made queue tickets asked :=
  ⟨h.futures.imp fun _ _ hmade => hmade.grows hgrows, h.queue⟩

theorem Mirror.mono {q : Queued β} {t : Nat × Ticket κ} (h : Mirror made q t)
    (hpre : made <+: made') : Mirror made' q t := by
  obtain ⟨rest, rfl⟩ := hpre
  exact ⟨h.1, (List.getElem?_append_left (List.getElem?_eq_some_iff.mp h.2).1).trans h.2⟩

/-- `batch_request` makes a future for each of its requests. -/
theorem made_batchRequest (h : c.Numbered) (item : κ → BatchItem (Option β)) (keys : List κ)
    (sent : Bool) :
    (c.batchRequest (keys.map item) sent).2.Numbered ∧
      c.Grows (c.batchRequest (keys.map item) sent).2 ∧
      ∃ futs, (c.batchRequest (keys.map item) sent).1 = .waiting futs ∧
        List.Forall₂ (MadeFor item (c.batchRequest (keys.map item) sent).2) futs keys := by
  have hcalls := Client.batchRequest_calls h.wellformed (keys.map item) sent
  have hlen : (c.batchRequest (keys.map item) sent).2.oneshots.length =
      c.oneshots.length + keys.length := by
    rw [Client.batchRequest_client, ← keys.length_map (f := item)]
    exact Client.iterate_register_oneshots_length (keys.map item).length c
  have hwell : (c.batchRequest (keys.map item) sent).2.Wellformed := by
    rw [Client.batchRequest_client]
    exact (h.wellformed.iterate_register _).congr rfl rfl rfl rfl rfl
  refine ⟨⟨hwell, ?_⟩, ⟨?_, ?_⟩, ?_⟩
  · rw [hcalls, hlen, List.length_append, List.length_mapIdx, List.length_map, h.length]
  · rw [hlen]
    exact Nat.le_add_right _ _
  · rw [hcalls]
    exact List.prefix_append _ _
  · have hresponses := Client.registerBatch_responses (keys.map item) c
    cases sent with
    | false =>
        refine ⟨_, rfl, ?_⟩
        refine List.forall₂_iff_get.mpr ⟨by simp [hresponses], ?_⟩
        intro i h₁ h₂
        exact Or.inl ⟨.yumError "Couldn't send request", by simp⟩
    | true =>
        refine ⟨_, rfl, ?_⟩
        refine List.forall₂_iff_get.mpr ⟨by simp [hresponses], ?_⟩
        intro i h₁ h₂
        refine Or.inr ⟨c.oneshots.length + i,
          buildRequest (c.batchId i) (item keys[i]).method (item keys[i]).params,
          ?_, ?_, ?_, rfl, rfl⟩
        · simp [hresponses]
        · rw [hlen]
          exact Nat.add_lt_add_left h₂ _
        · rw [hcalls, List.getElem?_append_right (by simp [h.length])]
          simp [h.length, h₂]

theorem PollEnv.Stamped.push_eq {env : PollEnv κ β} {stamps : Nat → Nat} {n : Nat}
    (h : env.Stamped stamps n) (tickets : List (Nat × Ticket κ)) (keys : List κ) :
    env.push tickets (ticketsFrom n keys) = pushTickets stamps tickets n keys := by
  unfold push pushTickets ticketsFrom
  refine congrArg (tickets ++ ·) (List.ext_getElem (by simp) ?_)
  intro i hi _
  have hlt : i < keys.length := by simpa using hi
  have hstamp := h ⟨n + i, keys[i]⟩ (Nat.le_add_right n i)
  rw [Nat.add_sub_cancel_left] at hstamp
  simp [hstamp]

/-- The futures of a batch are pushed, and so are their tickets. -/
theorem Mirrors.push (h : Mirrors item c made queue tickets asked) (hgrows : c.Grows c')
    (hfuts : List.Forall₂ (MadeFor item c') futs keys) (stamps : Nat → Nat) :
    Mirrors item c' (made ++ futs) (pushFutures stamps queue (.waiting futs))
      (pushTickets stamps tickets asked.length keys) (asked ++ keys) := by
  have hmade : made.length = asked.length := h.futures.length_eq
  refine ⟨List.rel_append (h.grows hgrows).futures hfuts, ?_⟩
  refine List.rel_append (h.queue.imp fun _ _ hq => hq.mono (List.prefix_append _ _)) ?_
  refine List.forall₂_iff_get.mpr ⟨by simp [hfuts.length_eq], ?_⟩
  intro i h₁ h₂
  have hlt : i < futs.length := by simpa using h₁
  refine ⟨by simp, ?_⟩
  simp [← hmade, hlt]

/-- The instants are the same. -/
theorem Mirrors.stamps (h : Mirrors item c made queue tickets asked) :
    tickets.map Prod.fst = queue.map Prod.fst := by
  have hsame : List.Forall₂ (· = ·) (queue.map Prod.fst) (tickets.map Prod.fst) :=
    List.forall₂_map_left_iff.mpr (List.forall₂_map_right_iff.mpr (h.queue.imp fun _ _ hq => hq.1))
  rw [List.forall₂_eq_eq_eq] at hsame
  exact hsame.symm

/-- The front of both queues is taken. -/
theorem Mirrors.pop (h : Mirrors item c made queue tickets asked) :
    Option.Rel (Mirror made) (popFront queue).1 (popFront tickets).1 ∧
      Mirrors item c made (popFront queue).2 (popFront tickets).2 asked := by
  obtain ⟨hfutures, hqueue⟩ := h
  cases hqueue with
  | nil => exact ⟨.none, hfutures, .nil⟩
  | cons hfirst hrest => exact ⟨.some hfirst, hfutures, hrest⟩

end made

/-! ## Runs are runs of the ticket machine -/

/-- A live stream that is carried out by a ticket stream: `Rel` relates their states when the
futures `made` were made, and `asked` is what they were made for. -/
structure Carries {S T κ β : Type} (L : LiveOps S β) (P : TicketOps T κ β)
    (item : κ → BatchItem (Option β)) (asked : T → List κ)
    (Rel : List (YumFuture (Option β)) → Client → S → T → Prop) : Prop where
  /-- `next` makes at most one batch -/
  sends : ∀ {c c' s s' sent stamps r}, L.next s c sent stamps = some (r, s', c') →
    c' = c ∨ ∃ keys : List κ, c' = (c.batchRequest (keys.map item) sent).2
  made : ∀ {made c s t}, Rel made c s t → List.Forall₂ (MadeFor item c) made (asked t)
  grows : ∀ {made c c' s t}, Rel made c s t → c.Grows c' → Rel made c' s t
  next : ∀ {made c c' s s' t sent stamps r}, c.Numbered → Rel made c s t →
    L.next s c sent stamps = some (r, s', c') →
      ∃ made' r' t', made <+: made' ∧ Rel made' c' s' t' ∧ Option.Rel (Mirror made') r r' ∧
        ∀ env : PollEnv κ β, env.Stamped stamps (asked t).length → P.next env t = some (r', t')
  yield : ∀ {made c s s' t b}, Rel made c s t → L.yield s b = some s' →
    ∃ t', P.yield t b = some t' ∧ Rel made c s' t'
  keep : ∀ {made c s t q k}, Rel made c s t → Mirror made q k →
    Rel made c (L.keep s q) (P.keep t k)

/-- The live stream `ls` and the ticket stream `t`.  While a future is held, the poll that took
it is still to come. -/
structure Tracks {S T κ β : Type} (P : TicketOps T κ β) (asked : T → List κ)
    (Rel : List (YumFuture (Option β)) → Client → S → T → Prop)
    (made : List (YumFuture (Option β))) (ls : LiveStream S β) (t : T) : Prop where
  numbered : ls.client.Numbered
  idle : ls.held = none → Rel made ls.client ls.stream t
  held : ∀ q, ls.held = some q → ∃ stamps k t', Rel made ls.client ls.stream t' ∧
    Mirror made q k ∧ ∀ env : PollEnv κ β, env.Stamped stamps (asked t).length →
      P.next env t = some (some k, t')

theorem Exchanged.batchRequest {α : Type} {A : Server} {c : Client} (h : Exchanged A c)
    (requests : List (BatchItem α)) (sent : Bool) :
    Exchanged A (c.batchRequest requests sent).2 := by
  have hsent : (c.batchRequest requests sent).2 = (c.batchRequest requests true).2 := by
    rw [Client.batchRequest_client, Client.batchRequest_client]
  rw [hsent, Client.batchRequest_forget h.wellformed]
  have hquiet : Honest A c (.batchRequest (requests.map fun item =>
    ⟨item.method, item.params, Except.ok⟩) 0) := trivial
  exact h.step (C := Client.updateCodec) hquiet rfl

namespace Carries
variable {S T κ β : Type} {L : LiveOps S β} {P : TicketOps T κ β}
  {item : κ → BatchItem (Option β)} {asked : T → List κ}
  {Rel : List (YumFuture (Option β)) → Client → S → T → Prop} {C : Codec}
  {made : List (YumFuture (Option β))} {ls ls' : LiveStream S β} {t : T}

theorem sends_grows (h : Carries L P item asked Rel) {c c' : Client} {s s' : S} {sent : Bool}
    {stamps : Nat → Nat} {r : Option (Queued β)} (hnumbered : c.Numbered)
    (hnext : L.next s c sent stamps = some (r, s', c')) : c'.Numbered ∧ c.Grows c' := by
  rcases h.sends hnext with rfl | ⟨keys, rfl⟩
  · exact ⟨hnumbered, Client.Grows.refl _⟩
  · obtain ⟨hnumbered', hgrows, _⟩ := made_batchRequest hnumbered item keys sent
    exact ⟨hnumbered', hgrows⟩

/-- What the ticket machine is answered while the live one settles. -/
def environment (made : List (YumFuture (Option β))) (o : Oneshots) (stamps : Nat → Nat)
    (n now : Nat) : PollEnv κ β where
  answer k := match made[k.seq]? with
    | some f => (f.poll o).1
    | none => .ok .notReady
  stamp k := stamps (k.seq - n)
  now := now

theorem environment_fate {o : Oneshots} {stamps : Nat → Nat} {n now : Nat} {q : Queued β}
    {k : Nat × Ticket κ} (h : Mirror made q k) :
    (environment made o stamps n now).fate k = (fateOf now q o).1 := by
  obtain ⟨htime, hplace⟩ := h
  simp only [PollEnv.fate, environment, hplace, fateOf, htime]
  rcases q.2.poll o with ⟨_ | _ | _, f⟩
  · rfl
  · rename_i b
    cases b <;> rfl
  · rfl

/-- One step of a live stream: a poll of the ticket machine with the same result, or none. -/
theorem step (h : Carries L P item asked Rel) (hlive : Tracks P asked Rel made ls t)
    {e : LiveEvent} {o : Option (Poll (Option β))}
    (hstep : (L.machine C).step ls e = some (o, ls')) :
    ∃ made' tr t', made <+: made' ∧ P.machine.Run t tr t' ∧
      Mealy.observed ticketResult tr = liveResult (e, o) ∧ Tracks P asked Rel made' ls' t' ∧
      ls.client.Grows ls'.client ∧
      ∀ e' ∈ tr, ∀ k fate, e'.2.polled = some (k, fate) → ∃ q now, e = .settle now ∧
        ls.held = some q ∧ made[k.seq]? = some q.2 ∧
        fate = (fateOf now q ls.client.oneshots).1 := by
  cases e with
  | op op =>
      obtain ⟨⟨regs, c⟩, hop, heq⟩ := Option.map_eq_some_iff.mp hstep
      cases heq
      obtain ⟨hnumbered, hgrows⟩ := hlive.numbered.step hop
      refine ⟨made, [], t, List.prefix_rfl, Mealy.Run.nil, rfl, ⟨hnumbered, ?_, ?_⟩, hgrows, ?_⟩
      · exact fun hidle => h.grows (hlive.idle hidle) hgrows
      · intro q hq
        obtain ⟨stamps, k, t', hrel, hmirror, hnext⟩ := hlive.held q hq
        exact ⟨stamps, k, t', h.grows hrel hgrows, hmirror, hnext⟩
      · intro e he
        cases he
  | next sent stamps =>
      cases hheld : ls.held with
      | some q => simp [LiveOps.machine, hheld] at hstep
      | none =>
          simp only [LiveOps.machine, hheld] at hstep
          obtain ⟨⟨r, s, c⟩, hnext, heq⟩ := Option.map_eq_some_iff.mp hstep
          obtain ⟨hnumbered, hgrows⟩ := h.sends_grows hlive.numbered hnext
          obtain ⟨made', r', t', hpre, hrel, hitem, hticket⟩ :=
            h.next hlive.numbered (hlive.idle hheld) hnext
          cases hitem with
          | none =>
              cases heq
              -- the stream ended: the ticket machine is polled now
              have hpoll : P.machine.step t
                  (environment made ls.client.oneshots stamps (asked t).length 0) =
                    some (.done, t') := by
                simp only [TicketOps.machine]
                rw [hticket _ fun _ _ => rfl]
                rfl
              refine ⟨made', _, t', hpre, Mealy.Run.single hpoll, rfl,
                ⟨hnumbered, fun _ => hrel, ?_⟩, hgrows, ?_⟩
              · intro q hq
                cases hq
              · intro e he k fate hpolled
                rw [List.mem_singleton.mp he] at hpolled
                cases hpolled
          | @some q k hmirror =>
              cases heq
              refine ⟨made', [], t, hpre, Mealy.Run.nil, rfl, ⟨hnumbered, ?_, ?_⟩, hgrows, ?_⟩
              · intro hidle
                cases hidle
              · intro q' hq'
                cases hq'
                exact ⟨stamps, k, t', hrel, hmirror, hticket⟩
              · intro e he
                cases he
  | settle now =>
      cases hheld : ls.held with
      | none => simp [LiveOps.machine, hheld] at hstep
      | some q =>
          simp only [LiveOps.machine, hheld] at hstep
          obtain ⟨s, hsettle, heq⟩ := Option.map_eq_some_iff.mp hstep
          cases heq
          obtain ⟨stamps, k, t₁, hrel, hmirror, hticket⟩ := hlive.held q hheld
          have hmem : q.2 ∈ made := List.mem_of_getElem? hmirror.2
          have hfate : (environment made ls.client.oneshots stamps (asked t).length now).fate k =
              (fateOf now q ls.client.oneshots).1 := environment_fate hmirror
          have hmatch : ∃ t', P.settle t₁ k (fateOf now q ls.client.oneshots).1 = some t' ∧
              Rel made ls.client s t' := by
            obtain ⟨_, _, hmade⟩ := Slots.exists_right (h.made hrel) hmem
            cases hcase : (fateOf now q ls.client.oneshots).1 with
            | yielded b =>
                rw [hcase] at hsettle
                exact h.yield hrel hsettle
            | kept =>
                rw [hcase, hmade.fateOf_kept hcase] at hsettle
                cases hsettle
                exact ⟨_, rfl, h.keep hrel hmirror⟩
            | null =>
                rw [hcase] at hsettle
                cases hsettle
                exact ⟨t₁, rfl, hrel⟩
            | failed e =>
                rw [hcase] at hsettle
                cases hsettle
                exact ⟨t₁, rfl, hrel⟩
            | late =>
                rw [hcase] at hsettle
                cases hsettle
                exact ⟨t₁, rfl, hrel⟩
          obtain ⟨t', hsettled, hrel'⟩ := hmatch
          have hpoll : P.machine.step t
              (environment made ls.client.oneshots stamps (asked t).length now) =
                some (.of k (fateOf now q ls.client.oneshots).1, t') := by
            simp only [TicketOps.machine]
            rw [hticket _ fun _ _ => rfl]
            simp only [Option.bind_some, hfate, hsettled, Option.map_some]
          refine ⟨made, _, t', List.prefix_rfl, Mealy.Run.single hpoll, rfl,
            ⟨hlive.numbered, fun _ => hrel', ?_⟩, Client.Grows.refl _, ?_⟩
          · intro q' hq'
            cases hq'
          · intro e he k' fate hpolled
            rw [List.mem_singleton.mp he] at hpolled
            obtain ⟨rfl, rfl⟩ := Prod.mk.inj (Option.some.inj hpolled)
            exact ⟨q, now, rfl, rfl, hmirror.2, rfl⟩

/-- **A live stream does what the ticket machine does.**  Whatever else happens to the client,
and however a poll is interrupted. -/
theorem simulation (h : Carries L P item asked Rel) (C : Codec) :
    Mealy.Simulation (L.machine C) P.machine liveResult ticketResult (fun _ _ => True)
      fun _ ls _ t => ∃ made, Tracks P asked Rel made ls t where
  step := by
    rintro tr ls ls' tr' t e o ⟨made, hlive⟩ _ hstep
    obtain ⟨made', more, t', _, hrun, hview, hlive', _⟩ := h.step hlive hstep
    exact ⟨more, t', hrun, hview, made', hlive'⟩

end Carries

/-! ## What is yielded -/

/-- `Honest`, for a client under a stream. -/
def HonestUnder {S β : Type} (A : Server) (ls : LiveStream S β) : LiveEvent → Prop
  | .op op => Honest A ls.client op
  | _ => True

/-- No poll finds the future that it took pending and five seconds old. -/
def InTime {S β : Type} (ls : LiveStream S β) : LiveEvent → Prop
  | .settle now => ∀ q, ls.held = some q → (q.2.poll ls.client.oneshots).1 = .ok .notReady →
      now - q.1 < fiveSeconds
  | _ => True

/-- The server answered so to the call of the future that was made as the `i`th. -/
def Earned {β : Type} (A : Server) (c : Client) (made : List (YumFuture (Option β))) (i : Nat)
    (x : Option β) : Prop :=
  ∃ tx de call, made[i]? = some (.waitingFn tx de) ∧ c.calls[tx]? = some call ∧
    Own A call de (.ok x)

namespace Carries
variable {S T κ β : Type} {L : LiveOps S β} {P : TicketOps T κ β}
  {item : κ → BatchItem (Option β)} {asked : T → List κ}
  {Rel : List (YumFuture (Option β)) → Client → S → T → Prop} {C : Codec} {A : Server}
  {c : Client} {made made' : List (YumFuture (Option β))} {ls ls' : LiveStream S β} {t : T}
  {i : Nat} {x : Option β}

theorem earned_mono {c' : Client} (h : Earned A c made i x) (hpre : made <+: made')
    (hgrows : c.Grows c') : Earned A c' made' i x := by
  obtain ⟨tx, de, call, hmade, hcall, hown⟩ := h
  refine ⟨tx, de, call, ?_, ?_, hown⟩
  · obtain ⟨rest, rfl⟩ := hpre
    rw [List.getElem?_append_left (List.getElem?_eq_some_iff.mp hmade).1, hmade]
  · obtain ⟨rest, hrest⟩ := hgrows.calls
    rw [← hrest, List.getElem?_append_left (List.getElem?_eq_some_iff.mp hcall).1, hcall]

/-- A future that is ready is so from the server. -/
theorem earned_of_ready {keys : List κ} (hfuts : List.Forall₂ (MadeFor item c) made keys)
    (hexchanged : Exchanged A c) (hturn : c.oneshots.length ≤ word) {f : YumFuture (Option β)}
    (hf : made[i]? = some f) (hready : (f.poll c.oneshots).1 = .ok (.ready x)) :
    Earned A c made i x := by
  obtain ⟨k, _, hmade⟩ := Slots.exists_right hfuts (List.mem_of_getElem? hf)
  rcases hmade with ⟨e, rfl⟩ | ⟨tx, call, rfl, hlt, hcall, _⟩
  · cases hready
  · have htells := (Underway.start hexchanged).tells hturn hcall hlt (item k).de
      (.waitingFn tx (item k).de)
    exact ⟨tx, _, call, hf, hcall, htells.ready x hready⟩

/-- The client goes on talking to the server. -/
theorem exchanged_step (h : Carries L P item asked Rel) (hexchanged : Exchanged A ls.client)
    {e : LiveEvent} {o : Option (Poll (Option β))} (hhonest : HonestUnder A ls e)
    (hstep : (L.machine C).step ls e = some (o, ls')) : Exchanged A ls'.client := by
  cases e with
  | op op =>
      obtain ⟨⟨regs, c⟩, hop, heq⟩ := Option.map_eq_some_iff.mp hstep
      cases heq
      exact hexchanged.step hhonest hop
  | next sent stamps =>
      cases hheld : ls.held with
      | some q => simp [LiveOps.machine, hheld] at hstep
      | none =>
          simp only [LiveOps.machine, hheld] at hstep
          obtain ⟨⟨r, s, c⟩, hnext, heq⟩ := Option.map_eq_some_iff.mp hstep
          have hclient : ls'.client = c := by
            cases r with
            | none =>
                cases heq
                rfl
            | some q =>
                cases heq
                rfl
          rw [hclient]
          rcases h.sends hnext with rfl | ⟨keys, rfl⟩
          · exact hexchanged
          · exact hexchanged.batchRequest _ _
  | settle now =>
      cases hheld : ls.held with
      | none => simp [LiveOps.machine, hheld] at hstep
      | some q =>
          simp only [LiveOps.machine, hheld] at hstep
          obtain ⟨s, _, heq⟩ := Option.map_eq_some_iff.mp hstep
          cases heq
          exact hexchanged

/-- What was made so far was made for what was asked. -/
theorem rel_of_tracks (hlive : Tracks P asked Rel made ls t) :
    ∃ s' t', Rel made ls.client s' t' := by
  cases hheld : ls.held with
  | none => exact ⟨_, t, hlive.idle hheld⟩
  | some q =>
      obtain ⟨_, _, t', hrel, _⟩ := hlive.held q hheld
      exact ⟨_, t', hrel⟩

/-- A live stream over a client that talks to an honest server does what the ticket machine does,
and what polling a ticket made ready the server answered to the call of that ticket.  `p` is asked
for when the polls come in time. -/
theorem simulation_earned (h : Carries L P item asked Rel) (A : Server) (C : Codec) (p : Prop) :
    Mealy.Simulation (L.machine C) P.machine liveResult ticketResult
      (fun ls e => HonestUnder A ls e ∧ (p → InTime ls e))
      fun _ ls tr' t => ∃ made, Tracks P asked Rel made ls t ∧ Exchanged A ls.client ∧
        (ls.client.oneshots.length ≤ word → ∀ e ∈ tr', ∀ k fate x, e.2.polled = some (k, fate) →
          fate.answer = .ok (.ready x) → Earned A ls.client made k.seq x) ∧
        (p → ∀ e ∈ tr', ∀ k, e.2.polled ≠ some (k, .late)) where
  step := by
    rintro tr ls ls' tr' t e o ⟨made, hlive, hexchanged, hearned, htimely⟩ ⟨hhonest, hintime⟩ hstep
    obtain ⟨made', more, t', hpre, hrun, hview, hlive', hgrows, hpolls⟩ := h.step hlive hstep
    refine ⟨more, t', hrun, hview, made', hlive', h.exchanged_step hexchanged hhonest hstep, ?_, ?_⟩
    · intro hturn e' he' k fate x hpolled hready
      have hturn' : ls.client.oneshots.length ≤ word := hgrows.oneshots.trans hturn
      rcases List.mem_append.mp he' with hold | hnew
      · exact earned_mono (hearned hturn' e' hold k fate x hpolled hready) hpre hgrows
      · obtain ⟨q, now, rfl, _, hq, rfl⟩ := hpolls e' hnew k fate hpolled
        rw [fateOf_answer] at hready
        obtain ⟨_, _, hrel⟩ := rel_of_tracks hlive
        exact earned_mono (earned_of_ready (h.made hrel) hexchanged hturn' hq hready) hpre hgrows
    · intro hp e' he' k hpolled
      rcases List.mem_append.mp he' with hold | hnew
      · exact htimely hp e' hold k hpolled
      · obtain ⟨q, now, rfl, hheld, _, hlate⟩ := hpolls e' hnew k .late hpolled
        have hpending := fateOf_answer now q ls.client.oneshots
        rw [← hlate] at hpending
        exact fateOf_late hlate.symm (hintime hp q hheld hpending.symm)

/-- What was earned, was earned with the call for what was asked. -/
theorem call_of_earned (h : Carries L P item asked Rel) (hlive : Tracks P asked Rel made ls t)
    (hearned : Earned A ls.client made i x) : ∃ s' t' k call, Rel made ls.client s' t' ∧
      (asked t')[i]? = some k ∧ call ∈ ls.client.calls ∧ call.method = (item k).method ∧
      call.params = some (item k).params ∧ Own A call (item k).de (.ok x) := by
  obtain ⟨tx, de, call, hmade, hcall, hown⟩ := hearned
  obtain ⟨s', t', hrel⟩ := rel_of_tracks hlive
  have hfuts := h.made hrel
  obtain ⟨hlt, hget⟩ := List.getElem?_eq_some_iff.mp hmade
  have hlt' : i < (asked t').length := hfuts.length_eq ▸ hlt
  have hfor := hfuts.get hlt hlt'
  simp only [List.get_eq_getElem, hget] at hfor
  rcases hfor with ⟨e, he⟩ | ⟨tx', call', heq, _, hcall', hmethod, hparams⟩
  · cases he
  · cases heq
    obtain rfl := Option.some.inj (hcall'.symm.trans hcall)
    exact ⟨s', t', _, call', hrel, List.getElem?_eq_getElem hlt', List.mem_of_getElem? hcall,
      hmethod, hparams, hown⟩

end Carries

/-- A poll finds the stream ended, or polls a future. -/
theorem TicketOps.out_cases {T κ β : Type} {P : TicketOps T κ β} {t t' : T}
    {tr : List (PollEnv κ β × PollOut κ β)} (hrun : P.machine.Run t tr t')
    {e : PollEnv κ β × PollOut κ β} (he : e ∈ tr) :
    e.2 = .done ∨ ∃ item fate, e.2 = .of item fate := by
  obtain ⟨pre, post, rfl⟩ := List.append_of_mem he
  obtain ⟨t₁, _, hpost⟩ := hrun.split
  obtain ⟨t₂, hstep, _⟩ := Mealy.run_cons.mp hpost
  obtain ⟨⟨front, t₃⟩, _, hpolled⟩ := Option.bind_eq_some_iff.mp hstep
  cases front with
  | none =>
      obtain ⟨hout, _⟩ := Prod.mk.inj (Option.some.inj hpolled)
      exact Or.inl hout.symm
  | some item =>
      obtain ⟨t₄, _, heq⟩ := Option.map_eq_some_iff.mp hpolled
      exact Or.inr ⟨item, _, (Prod.mk.inj heq).1.symm⟩

/-- A poll that yields an item polled the future that had it. -/
theorem TicketOps.polled_of_ready {T κ β : Type} {P : TicketOps T κ β} {t t' : T}
    {tr : List (PollEnv κ β × PollOut κ β)} (hrun : P.machine.Run t tr t') {b : β}
    (hb : b ∈ itemsOf (tr.map fun e => e.2.result)) :
    ∃ e ∈ tr, ∃ k, e.2.polled = some (k, .yielded b) := by
  obtain ⟨r, hr, hitem⟩ := List.mem_filterMap.mp hb
  obtain ⟨e, he, rfl⟩ := List.mem_map.mp hr
  have hready : e.2.result = .ok (.ready (some b)) := by
    split at hitem
    · rename_i hresult
      rw [hresult, hitem]
    · cases hitem
  refine ⟨e, he, ?_⟩
  rcases out_cases hrun he with hout | ⟨item, fate, hout⟩
  · rw [hout] at hready
    cases hready
  · rw [hout] at hready ⊢
    exact ⟨item.2, congrArg (fun fate => some (item.2, fate)) (Fate.eq_yielded hready)⟩

end Ethereyum
