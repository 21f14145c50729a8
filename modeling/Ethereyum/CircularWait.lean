/-
# `CircularWait` — no threads of the client wait for each other in a circle

What a thread wants comes after what it has, in the order

    sockets, the thread of a worker, ts, pending, subscriptions

(`ascends`): `is_connected`, `stop` and the sentinel wait for a worker under the lock of
the deque, the sweep takes `pending` under `ts`, the read loop `subscriptions` under
`pending`, and everybody else takes one lock at a time.

That the program counters know who has which lock (`holds`) is an invariant of the runs,
and so is that only threads of workers are awaited or joined (`Inv`).  Both follow from
what each instruction does to the locks and names of its thread (`instr_sound`).
-/
import Ethereyum.Lib.WaitFor
import Ethereyum.Locks

namespace Ethereyum

/-! ## What a thread holds, and whom it knows -/

def Sending.holds : Sending → List Lock
  | .popping => [.sockets]
  | .popped _ => [.sockets]
  | .pushing _ => [.sockets]
  | .pushed => [.sockets]
  | .responding => [.pending]
  | _ => []

def Calling.holds : Calling → List Lock
  | .inserting _ => [.pending]
  | .stamping _ => [.ts]
  | .insertingAll _ => [.pending]
  | .sending _ pc => pc.holds
  | .subscribing => [.subscriptions]
  | .asking _ => [.sockets]
  | .askingAt _ _ => [.sockets]
  | .asked _ => [.sockets]
  | .answered => [.sockets]
  | .stopping _ => [.sockets]
  | .stoppingAt _ _ => [.sockets]
  | .taking _ _ => [.sockets]
  | .joining _ _ => [.sockets]
  | .stopped => [.sockets]
  | _ => []

def Watching.holds : Watching → List Lock
  | .asleep => []
  | .visit => []
  | .gone => []
  | _ => [.sockets]

def Sweeping.holds : Sweeping → List Lock
  | .sweeping => [.ts]
  | .expire _ _ => [.ts]
  | .expiring _ _ => [.pending, .ts]
  | .expired _ _ => [.pending, .ts]
  | .forgetting _ => [.ts]
  | _ => []

def Serving.holds : Serving → List Lock
  | .responding _ => [.pending]
  | .notifying _ => [.subscriptions, .pending]
  | _ => []

/-- The locks a thread has, last taken first. -/
def Thread.holds : Thread → List Lock
  | .caller pc => pc.holds
  | .sentinel pc => pc.holds
  | .timeout pc => pc.holds
  | .worker _ pc => pc.holds

/-- The threads a worker's entry names. -/
def SocketWorker.refs (w : SocketWorker) : List ThreadId := w.tx :: w.thread.toList

def Sending.refs : Sending → List ThreadId
  | .popped w => w.elim [] SocketWorker.refs
  | .requesting w => w.refs
  | .push w => w.refs
  | .pushing w => w.refs
  | _ => []

def Calling.refs : Calling → List ThreadId
  | .sending _ pc => pc.refs
  | .askingAt _ w => w.refs
  | .asked k => [k]
  | .stoppingAt _ w => w.refs
  | .taking _ w => w.refs
  | .joining _ k => [k]
  | _ => []

def Watching.refs : Watching → List ThreadId
  | .ping _ w => w.refs
  | .pinged _ w => w.refs
  | .reconnect _ w => w.refs
  | .asked _ k => [k]
  | .askAgain _ w => w.refs
  | .askedAgain _ k => [k]
  | _ => []

/-- The threads of workers that a thread may come to wait for. -/
def Thread.refs : Thread → List ThreadId
  | .caller pc => pc.refs
  | .sentinel pc => pc.refs
  | _ => []

def Thread.isWorker : Thread → Bool
  | .worker _ _ => true
  | _ => false

/-- From `th` a thread goes on as `th'`, and has learnt of the workers in `new`. -/
structure Thread.Follows (th : Thread) (new : List ThreadId) (th' : Thread) : Prop where
  refs : ∀ k ∈ th'.refs, k ∈ th.refs ∨ k ∈ new
  worker : th'.isWorker = th.isWorker

/-- An instruction does to the locks and names of `th` what it says. -/
def Instr.Sound (th : Thread) : Instr → Prop
  | .lock l next => next.holds = l :: th.holds ∧ th.Follows [] next
  | .unlock l next => th.holds = l :: next.holds ∧ th.Follows [] next
  | .popFront next => ∀ w, (next w).holds = th.holds ∧
      th.Follows (w.elim [] SocketWorker.refs) (next w)
  | .pushBack w next => next.holds = th.holds ∧ th.Follows [] next ∧ ∀ k ∈ w.refs, k ∈ th.refs
  | .look _ next => ∀ w, (next w).holds = th.holds ∧
      th.Follows (w.elim [] SocketWorker.refs) (next w)
  | .unthread _ next => next.holds = th.holds ∧ th.Follows [] next
  | .post _ _ next => ∀ b, (next b).holds = th.holds ∧ th.Follows [] (next b)
  | .await k next => k ∈ th.refs ∧ ∀ b, (next b).holds = th.holds ∧ th.Follows [] (next b)
  | .join k next => k ∈ th.refs ∧ ∀ b, (next b).holds = th.holds ∧ th.Follows [] (next b)
  | .connect _ next => ∀ b, (next b).holds = th.holds ∧ th.Follows [] (next b)
  | .branch next => ∀ b, (next b).holds = th.holds ∧ th.Follows [] (next b)
  | .pick next => ∀ n, (next n).holds = th.holds ∧ th.Follows [] (next n)
  | .rest => True

section sound
variable {th th' : Thread} {new : List ThreadId}

/-- A thread that forgets the workers it knew. -/
theorem Thread.Follows.forget (h : th'.refs = []) (hw : th'.isWorker = th.isWorker) :
    th.Follows new th' where
  refs := by simp [h]
  worker := hw

/-- A thread that knows the workers it knew. -/
theorem Thread.Follows.same (h : th'.refs = th.refs) (hw : th'.isWorker = th.isWorker) :
    th.Follows new th' where
  refs := fun _ hk => Or.inl (h ▸ hk)
  worker := hw

/-- A thread that knows the workers it has just learnt of. -/
theorem Thread.Follows.learn (h : th'.refs = new) (hw : th'.isWorker = th.isWorker) :
    th.Follows new th' where
  refs := fun _ hk => Or.inr (h ▸ hk)
  worker := hw

/-- A thread that goes on with one of the workers it knew. -/
theorem Thread.Follows.one {k : ThreadId} (h : th'.refs = [k]) (hk : k ∈ th.refs)
    (hw : th'.isWorker = th.isWorker) : th.Follows new th' where
  refs := by
    intro j hj
    rw [h] at hj
    obtain rfl := List.mem_singleton.mp hj
    exact Or.inl hk
  worker := hw

theorem SocketWorker.tx_mem (w : SocketWorker) : w.tx ∈ w.refs := List.mem_cons_self

theorem sending_sound (msg : String) (pc : Sending) :
    (pc.instr msg).Sound (.caller (.sending msg pc)) := by
  cases pc with
  | pop | pushed | respond | responding => exact ⟨rfl, .forget rfl rfl⟩
  | popping =>
      intro w
      exact ⟨rfl, .learn rfl rfl⟩
  | popped worker =>
      cases worker with
      | none => exact ⟨rfl, .forget rfl rfl⟩
      | some w => exact ⟨rfl, .same rfl rfl⟩
  | requesting w =>
      intro ok
      cases ok with
      | false => exact ⟨rfl, .forget rfl rfl⟩
      | true => exact ⟨rfl, .same rfl rfl⟩
  | push w => exact ⟨rfl, .same rfl rfl⟩
  | pushing w => exact ⟨rfl, .forget rfl rfl, fun _ hk => hk⟩
  | posting =>
      intro decoded
      cases decoded with
      | false => exact ⟨rfl, .forget rfl rfl⟩
      | true => exact ⟨rfl, .forget rfl rfl⟩

theorem calling_sound (pc : Calling) : pc.instr.Sound (.caller pc) := by
  cases pc with
  | idle => trivial
  | insert msg | inserting msg | stamp msg | stamping msg | insertAll msg | insertingAll msg =>
      exact ⟨rfl, .forget rfl rfl⟩
  | subscribe | subscribing | ask | answered | stop | stopped => exact ⟨rfl, .forget rfl rfl⟩
  | sending msg pc => exact sending_sound msg pc
  | asking i =>
      intro w
      cases w with
      | none => exact ⟨rfl, .forget rfl rfl⟩
      | some w =>
          show (if w.thread.isNone then Thread.caller (.asking (i + 1))
              else .caller (.askingAt i w)).holds = [.sockets] ∧
            Thread.Follows _ w.refs (if w.thread.isNone then Thread.caller (.asking (i + 1))
              else .caller (.askingAt i w))
          split
          · exact ⟨rfl, .forget rfl rfl⟩
          · exact ⟨rfl, .learn rfl rfl⟩
  | askingAt i w =>
      intro ok
      cases ok with
      | false => exact ⟨rfl, .forget rfl rfl⟩
      | true => exact ⟨rfl, .one rfl w.tx_mem rfl⟩
  | asked k => exact ⟨List.mem_singleton_self k, fun _ => ⟨rfl, .forget rfl rfl⟩⟩
  | stopping i =>
      intro w
      cases w with
      | none => exact ⟨rfl, .forget rfl rfl⟩
      | some w => exact ⟨rfl, .learn rfl rfl⟩
  | stoppingAt i w =>
      intro ok
      cases ok with
      | false => exact ⟨rfl, .forget rfl rfl⟩
      | true => exact ⟨rfl, .same rfl rfl⟩
  | taking i w =>
      cases hk : w.thread with
      | none =>
          have hinstr : (Calling.taking i w).instr = .unlock .sockets (.caller .idle) := by
            simp only [Calling.instr, hk]
          rw [hinstr]
          exact ⟨rfl, .forget rfl rfl⟩
      | some k =>
          have hinstr : (Calling.taking i w).instr = .unthread i (.caller (.joining i k)) := by
            simp only [Calling.instr, hk]
          rw [hinstr]
          refine ⟨rfl, .one (k := k) rfl ?_ rfl⟩
          show k ∈ w.tx :: w.thread.toList
          simp [hk]
  | joining i k =>
      refine ⟨List.mem_singleton_self k, ?_⟩
      intro ok
      cases ok with
      | false => exact ⟨rfl, .forget rfl rfl⟩
      | true => exact ⟨rfl, .forget rfl rfl⟩

theorem watching_sound (pc : Watching) : pc.instr.Sound (.sentinel pc) := by
  cases pc with
  | gone => trivial
  | visit | unthreading i | panicking | visited => exact ⟨rfl, .forget rfl rfl⟩
  | asleep => exact fun _ => ⟨rfl, .forget rfl rfl⟩
  | visiting i | checkingAt i =>
      intro w
      cases w with
      | none => exact ⟨rfl, .forget rfl rfl⟩
      | some w => exact ⟨rfl, .learn rfl rfl⟩
  | ping i w =>
      intro ok
      cases ok with
      | false => exact ⟨rfl, .same rfl rfl⟩
      | true => exact ⟨rfl, .same rfl rfl⟩
  | pinged i w =>
      refine ⟨w.tx_mem, ?_⟩
      intro ok
      cases ok with
      | false => exact ⟨rfl, .same rfl rfl⟩
      | true => exact ⟨rfl, .forget rfl rfl⟩
  | reconnect i w =>
      show (if w.thread.isNone then Instr.branch fun _ => .sentinel (.unthreading i)
        else .post w.tx .connectedStatus fun ok =>
          if ok then .sentinel (.asked i w.tx) else .sentinel (.unthreading i)).Sound _
      split
      · exact fun _ => ⟨rfl, .forget rfl rfl⟩
      · intro ok
        cases ok with
        | false => exact ⟨rfl, .forget rfl rfl⟩
        | true => exact ⟨rfl, .one rfl w.tx_mem rfl⟩
  | asked i k | askedAgain i k =>
      refine ⟨List.mem_singleton_self k, ?_⟩
      intro ok
      cases ok with
      | false => exact ⟨rfl, .forget rfl rfl⟩
      | true => exact ⟨rfl, .forget rfl rfl⟩
  | connecting i | checking i =>
      intro b
      cases b with
      | false => exact ⟨rfl, .forget rfl rfl⟩
      | true => exact ⟨rfl, .forget rfl rfl⟩
  | askAgain i w =>
      intro ok
      cases ok with
      | false => exact ⟨rfl, .forget rfl rfl⟩
      | true => exact ⟨rfl, .one rfl w.tx_mem rfl⟩

theorem sweeping_sound (pc : Sweeping) : pc.instr.Sound (.timeout pc) := by
  cases pc with
  | sweep | expired n m | forgetting m => exact ⟨rfl, .forget rfl rfl⟩
  | asleep | sweeping => exact fun _ => ⟨rfl, .forget rfl rfl⟩
  | expire n m =>
      cases n with
      | zero => exact ⟨rfl, .forget rfl rfl⟩
      | succ n => exact ⟨rfl, .forget rfl rfl⟩
  | expiring n m =>
      intro found
      cases found with
      | false => exact ⟨rfl, .forget rfl rfl⟩
      | true => exact ⟨rfl, .forget rfl rfl⟩
  | forget m =>
      cases m with
      | zero => exact fun _ => ⟨rfl, .forget rfl rfl⟩
      | succ m => exact ⟨rfl, .forget rfl rfl⟩

theorem serving_sound (mailbox : List (SocketRequest × ThreadId)) (pc : Serving) :
    (pc.instr mailbox).Sound (.worker mailbox pc) := by
  cases pc with
  | gone ok => trivial
  | respond rs | notifying rs => exact ⟨rfl, .forget rfl rfl⟩
  | listening =>
      cases mailbox with
      | nil => trivial
      | cons mail mailbox =>
          obtain ⟨req, t⟩ := mail
          cases req <;> exact fun _ => ⟨rfl, .forget rfl rfl⟩
  | responding rs =>
      cases rs with
      | nil => exact ⟨rfl, .forget rfl rfl⟩
      | cons r rs =>
          cases r with
          | subscription id result => exact ⟨rfl, .forget rfl rfl⟩
          | success id result | failure id result => exact fun _ => ⟨rfl, .forget rfl rfl⟩

theorem instr_sound (th : Thread) : th.instr.Sound th := by
  cases th with
  | caller pc => exact calling_sound pc
  | sentinel pc => exact watching_sound pc
  | timeout pc => exact sweeping_sound pc
  | worker mailbox pc => exact serving_sound mailbox pc

end sound

/-! ## The order of the resources -/

/-- What a thread can wait for: a mutex, or the reply or the end of a worker's thread. -/
inductive Resource where
  | lock (l : Lock)
  | thread (k : ThreadId)

def Resource.rank : Resource → Nat
  | .lock .sockets => 0
  | .thread _ => 1
  | .lock .ts => 2
  | .lock .pending => 3
  | .lock .subscriptions => 4

def Instr.wants : Instr → Option Resource
  | .lock l _ => some (.lock l)
  | .await k _ => some (.thread k)
  | .join k _ => some (.thread k)
  | _ => none

/-- What a thread wants next comes after what it has. -/
def Thread.Ascends (th : Thread) : Prop :=
  ∀ l ∈ th.holds, ∀ r, th.instr.wants = some r → (Resource.lock l).rank < r.rank

section ascends
variable {th : Thread}

theorem Thread.Ascends.of_free (h : th.holds = []) : th.Ascends := by
  intro l hl
  rw [h] at hl
  cases hl

theorem Thread.Ascends.of_content (h : th.instr.wants = none) : th.Ascends := by
  intro l _ r hr
  rw [h] at hr
  cases hr

/-- A thread that holds the lock of the deque only. -/
theorem Thread.Ascends.of_sockets {k : ThreadId} (h : th.holds = [.sockets])
    (hk : th.instr.wants = some (.thread k)) : th.Ascends := by
  intro l hl r hr
  rw [h] at hl
  obtain rfl := List.mem_singleton.mp hl
  obtain rfl := Option.some.inj (hk.symm.trans hr)
  exact Nat.zero_lt_one

theorem calling_ascends (pc : Calling) : (Thread.caller pc).Ascends := by
  cases pc with
  | idle | insert msg | stamp msg | insertAll msg | subscribe | ask | stop => exact .of_free rfl
  | inserting msg | stamping msg | insertingAll msg | subscribing => exact .of_content rfl
  | sending msg pc =>
      cases pc with
      | pop | requesting w | push w | posting | respond => exact .of_free rfl
      | popping | pushing w | pushed | responding => exact .of_content rfl
      | popped w => cases w <;> exact .of_content rfl
  | asking i | askingAt i w | answered => exact .of_content rfl
  | stopping i | stoppingAt i w | stopped => exact .of_content rfl
  | asked k | joining i k => exact .of_sockets rfl rfl
  | taking i w =>
      refine .of_content ?_
      simp only [Thread.instr, Calling.instr]
      split <;> rfl

theorem watching_ascends (pc : Watching) : (Thread.sentinel pc).Ascends := by
  cases pc with
  | asleep | visit | gone => exact .of_free rfl
  | visiting i | ping i w | unthreading i | connecting i => exact .of_content rfl
  | checking i | checkingAt i | askAgain i w | panicking | visited => exact .of_content rfl
  | pinged i w | asked i k | askedAgain i k => exact .of_sockets rfl rfl
  | reconnect i w =>
      refine .of_content ?_
      simp only [Thread.instr, Watching.instr]
      split <;> rfl

theorem sweeping_ascends (pc : Sweeping) : (Thread.timeout pc).Ascends := by
  cases pc with
  | asleep | sweep | forget m => exact .of_free rfl
  | sweeping | expiring n m | expired n m | forgetting m => exact .of_content rfl
  | expire n m =>
      cases n with
      | zero => exact .of_content rfl
      | succ n =>
          intro l hl r hr
          obtain rfl := List.mem_singleton.mp hl
          obtain rfl := Option.some.inj hr
          decide

theorem serving_ascends (mailbox : List (SocketRequest × ThreadId)) (pc : Serving) :
    (Thread.worker mailbox pc).Ascends := by
  cases pc with
  | listening | respond rs | gone ok => exact .of_free rfl
  | notifying rs => exact .of_content rfl
  | responding rs =>
      cases rs with
      | nil => exact .of_content rfl
      | cons r rs =>
          cases r with
          | subscription id result =>
              intro l hl r hr
              obtain rfl := List.mem_singleton.mp hl
              obtain rfl := Option.some.inj hr
              decide
          | success id result | failure id result => exact .of_content rfl

theorem ascends (th : Thread) : th.Ascends := by
  cases th with
  | caller pc => exact calling_ascends pc
  | sentinel pc => exact watching_ascends pc
  | timeout pc => exact sweeping_ascends pc
  | worker mailbox pc => exact serving_ascends mailbox pc

/-- A worker's thread waits for no worker and not for the deque. -/
theorem worker_ascends (mailbox : List (SocketRequest × ThreadId)) (pc : Serving) {r : Resource}
    (hr : (Thread.worker mailbox pc).instr.wants = some r) (k : ThreadId) :
    (Resource.thread k).rank < r.rank := by
  cases pc with
  | gone ok => cases hr
  | notifying rs => cases hr
  | respond rs =>
      obtain rfl := Option.some.inj hr
      show 1 < 3
      decide
  | listening =>
      cases mailbox with
      | nil => cases hr
      | cons mail mailbox =>
          obtain ⟨req, t⟩ := mail
          cases req <;> cases hr
  | responding rs =>
      cases rs with
      | nil => cases hr
      | cons response rs =>
          cases response with
          | subscription id result =>
              obtain rfl := Option.some.inj hr
              show 1 < 4
              decide
          | success id result | failure id result => cases hr

/-- No lock is taken twice. -/
theorem holds_nodup (th : Thread) : th.holds.Nodup := by
  cases th with
  | caller pc =>
      cases pc with
      | sending msg pc => cases pc <;> simp [Thread.holds, Calling.holds, Sending.holds]
      | _ => simp [Thread.holds, Calling.holds]
  | sentinel pc => cases pc <;> simp [Thread.holds, Watching.holds]
  | timeout pc => cases pc <;> simp [Thread.holds, Sweeping.holds]
  | worker mailbox pc => cases pc <;> simp [Thread.holds, Serving.holds]

end ascends

/-! ## Who has what, along a run -/

namespace System

def IsWorker (s : System) (k : ThreadId) : Prop :=
  ∃ mailbox pc, s.threads[k]? = some (.worker mailbox pc)

/-- The table of the locks is right, and what threads and deque name are workers. -/
structure Inv (s : System) : Prop where
  owned : WaitFor.Owned Thread.holds s.owner s.threads
  known : ∀ (t : ThreadId) (th : Thread), s.threads[t]? = some th → ∀ k ∈ th.refs, s.IsWorker k
  named : ∀ w ∈ s.sockets, ∀ k ∈ w.refs, s.IsWorker k

section inv
variable {s s' : System} {t : ThreadId} {th th' : Thread} {new : List ThreadId}

theorem isWorker_iff {k : ThreadId} :
    s.IsWorker k ↔ ∃ th, s.threads[k]? = some th ∧ th.isWorker = true := by
  constructor
  · rintro ⟨mailbox, pc, hk⟩
    exact ⟨_, hk, rfl⟩
  · rintro ⟨th, hk, hw⟩
    cases th with
    | worker mailbox pc => exact ⟨mailbox, pc, hk⟩
    | caller pc | sentinel pc | timeout pc => cases hw

/-- Workers stay workers. -/
theorem isWorker_goto (ht : s.threads[t]? = some th) (hw : th'.isWorker = th.isWorker)
    {k : ThreadId} (h : s.IsWorker k) : (s.goto t th').IsWorker k := by
  obtain ⟨x, hx, hxw⟩ := isWorker_iff.mp h
  rw [isWorker_iff]
  by_cases hk : t = k
  · subst hk
    obtain rfl := Option.some.inj (ht.symm.trans hx)
    exact ⟨th', List.getElem?_set_self (Slots.lt_of_getElem? ht), hw.trans hxw⟩
  · exact ⟨x, (List.getElem?_set_ne hk).trans hx, hxw⟩

/-- A thread moves, and with it the table of the locks. -/
theorem Inv.move (h : s.Inv) (ht : s.threads[t]? = some th) (hfollows : th.Follows new th')
    (hnew : ∀ k ∈ new, s.IsWorker k) {owner : Lock → Option ThreadId}
    (howned : WaitFor.Owned Thread.holds owner (s.threads.set t th')) :
    Inv { s.goto t th' with owner } where
  owned := howned
  known := by
    intro u x hx k hk
    refine isWorker_goto ht hfollows.worker ?_
    rcases Slots.getElem?_set_cases hx with ⟨rfl, rfl⟩ | ⟨_, hx⟩
    · rcases hfollows.refs k hk with hk | hk
      · exact h.known _ th ht k hk
      · exact hnew k hk
    · exact h.known u x hx k hk
  named := fun w hw k hk => isWorker_goto ht hfollows.worker (h.named w hw k hk)

/-- A thread moves with the locks it has. -/
theorem Inv.goto (h : s.Inv) (ht : s.threads[t]? = some th) (hsame : th'.holds = th.holds)
    (hfollows : th.Follows new th') (hnew : ∀ k ∈ new, s.IsWorker k) : (s.goto t th').Inv :=
  h.move ht hfollows hnew (h.owned.keep ht hsame)

theorem Inv.withSockets (h : s.Inv) {sockets : List SocketWorker}
    (hnamed : ∀ w ∈ sockets, ∀ k ∈ w.refs, s.IsWorker k) : Inv { s with sockets } where
  owned := h.owned
  known := h.known
  named := hnamed

theorem isWorker_snoc {k : ThreadId} (h : s.IsWorker k) (th : Thread) :
    IsWorker { s with threads := s.threads ++ [th] } k := by
  obtain ⟨mailbox, pc, hk⟩ := h
  exact ⟨mailbox, pc, (List.getElem?_append_left (Slots.lt_of_getElem? hk)).trans hk⟩

/-- A thread starts. -/
theorem Inv.snoc (h : s.Inv) (hholds : th.holds = []) (hrefs : th.refs = []) :
    Inv { s with threads := s.threads ++ [th] } where
  owned := h.owned.snoc hholds
  known := by
    intro u x hx k hk
    rcases Slots.getElem?_snoc_cases hx with hx | ⟨_, rfl⟩
    · exact isWorker_snoc (h.known u x hx k hk) th
    · rw [hrefs] at hk
      cases hk
  named := fun w hw k hk => isWorker_snoc (h.named w hw k hk) th

theorem Inv.deliver (h : s.Inv) (k : ThreadId) (mail : SocketRequest × ThreadId) :
    (s.deliver k mail).Inv := by
  simp only [System.deliver]
  split
  · rename_i mailbox pc hk
    have hfollows : (Thread.worker mailbox pc).Follows [] (.worker (mailbox ++ [mail]) pc) :=
      .same rfl rfl
    exact h.goto hk rfl hfollows (by simp)
  · exact h

/-- The worker a thread reads from the deque. -/
theorem Inv.of_getElem? (h : s.Inv) (i : Nat) :
    ∀ k ∈ s.sockets[i]?.elim [] SocketWorker.refs, s.IsWorker k := by
  cases hw : s.sockets[i]? with
  | none => simp
  | some w => exact h.named w (List.mem_of_getElem? hw)

theorem Inv.exec (h : s.Inv) (ht : s.threads[t]? = some th) {outcome : Bool} {n : Nat}
    (hstep : s.exec t outcome n th.instr = some s') : s'.Inv := by
  have hsound := instr_sound th
  have hnil : ∀ k ∈ ([] : List ThreadId), s.IsWorker k := by simp
  have hgoes : ∀ {x : Thread}, x.holds = th.holds ∧ th.Follows [] x → (s.goto t x).Inv := by
    intro x hx
    exact h.goto ht hx.1 hx.2 hnil
  generalize th.instr = instr at hsound hstep
  cases instr with
  | lock l next =>
      simp only [System.exec] at hstep
      split at hstep
      · rename_i hfree
        obtain rfl := Option.some.inj hstep
        exact h.move ht hsound.2 hnil (h.owned.take ht hfree hsound.1)
      · cases hstep
  | unlock l next =>
      obtain rfl := Option.some.inj hstep
      exact h.move ht hsound.2 hnil (h.owned.give ht hsound.1 (holds_nodup th))
  | popFront next =>
      obtain rfl := Option.some.inj hstep
      obtain ⟨hsame, hfollows⟩ := hsound s.sockets.head?
      have hfront : ∀ k ∈ s.sockets.head?.elim [] SocketWorker.refs, s.IsWorker k := by
        rw [List.head?_eq_getElem?]
        exact h.of_getElem? 0
      have hmoved := h.goto ht hsame hfollows hfront
      refine hmoved.withSockets ?_
      intro w hw
      exact hmoved.named w (List.mem_of_mem_tail hw)
  | pushBack w next =>
      obtain rfl := Option.some.inj hstep
      obtain ⟨hsame, hfollows, hw⟩ := hsound
      have hmoved := hgoes ⟨hsame, hfollows⟩
      refine hmoved.withSockets ?_
      intro x hx k hk
      rcases List.mem_append.mp hx with hx | hx
      · exact hmoved.named x hx k hk
      · obtain rfl := List.mem_singleton.mp hx
        exact isWorker_goto ht hfollows.worker (h.known t th ht k (hw k hk))
  | look i next =>
      obtain rfl := Option.some.inj hstep
      obtain ⟨hsame, hfollows⟩ := hsound s.sockets[i]?
      exact h.goto ht hsame hfollows (h.of_getElem? i)
  | unthread i next =>
      obtain rfl := Option.some.inj hstep
      have hmoved := hgoes hsound
      refine hmoved.withSockets ?_
      intro x hx k hk
      rcases Slots.mem_modify_cases hx with hx | ⟨w, hw, rfl⟩
      · exact hmoved.named x hx k hk
      · obtain rfl := List.mem_singleton.mp hk
        exact hmoved.named w hw _ w.tx_mem
  | post k req next =>
      simp only [System.exec] at hstep
      split at hstep
      · obtain rfl := Option.some.inj hstep
        exact (hgoes (hsound true)).deliver k (req, t)
      · obtain rfl := Option.some.inj hstep
        exact hgoes (hsound false)
  | await k next =>
      simp only [System.exec] at hstep
      split at hstep
      · cases hstep
      · split at hstep
        · obtain rfl := Option.some.inj hstep
          exact hgoes (hsound.2 true)
        · split at hstep
          · cases hstep
          · obtain rfl := Option.some.inj hstep
            exact hgoes (hsound.2 false)
  | join k next =>
      obtain ⟨ok, _, rfl⟩ := Option.map_eq_some_iff.mp hstep
      exact hgoes (hsound.2 ok)
  | connect i next =>
      simp only [System.exec] at hstep
      split at hstep
      · obtain rfl := Option.some.inj hstep
        have hmoved := (hgoes (hsound true)).snoc
          (show (Thread.worker [] .listening).holds = [] from rfl) rfl
        refine hmoved.withSockets ?_
        intro x hx k hk
        rcases Slots.mem_modify_cases hx with hx | ⟨w, hw, rfl⟩
        · exact hmoved.named x hx k hk
        · have hk : k = s.threads.length := by simpa [SocketWorker.refs] using hk
          subst hk
          refine ⟨[], .listening, ?_⟩
          simp [System.goto]
      · obtain rfl := Option.some.inj hstep
        exact hgoes (hsound false)
  | branch next =>
      obtain rfl := Option.some.inj hstep
      exact hgoes (hsound outcome)
  | pick next =>
      obtain rfl := Option.some.inj hstep
      exact hgoes (hsound n)
  | rest => cases hstep

theorem Inv.step (h : s.Inv) {e : SystemEvent} {o : Unit}
    (hstep : machine.step s e = some (o, s')) : s'.Inv := by
  obtain ⟨q, hq, hstep⟩ := Option.map_eq_some_iff.mp hstep
  obtain ⟨rfl, rfl⟩ := Prod.mk.inj hstep
  have hnil : ∀ k ∈ ([] : List ThreadId), s.IsWorker k := by simp
  cases e with
  | spawn =>
      obtain rfl := Option.some.inj hq
      exact h.snoc rfl rfl
  | call t entry =>
      simp only at hq
      split at hq
      · rename_i ht
        obtain rfl := Option.some.inj hq
        refine h.goto ht ?_ (.forget ?_ rfl) hnil
        · cases entry <;> rfl
        · cases entry <;> rfl
      · cases hq
  | run t outcome n =>
      obtain ⟨th, ht, hexec⟩ := Option.bind_eq_some_iff.mp hq
      exact h.exec ht hexec
  | receive t rs =>
      simp only at hq
      split at hq
      · rename_i ht
        obtain rfl := Option.some.inj hq
        exact h.goto ht rfl (.forget rfl rfl) hnil
      · cases hq
  | die t ok =>
      simp only at hq
      split at hq
      · rename_i ht
        obtain rfl := Option.some.inj hq
        exact h.goto ht rfl (.forget rfl rfl) hnil
      · cases hq

theorem fresh_worker {hosts : List String} {k : Nat} (hk : k < hosts.length) :
    (fresh hosts).IsWorker k := by
  refine ⟨[], .listening, ?_⟩
  show (hosts.map (fun _ => Thread.worker [] .listening) ++ _)[k]? = _
  rw [List.getElem?_append_left (by simpa using hk)]
  simp [hk]

/-- A thread of the start is a worker, or has no business with one; nobody has a lock. -/
theorem fresh_inv (hosts : List String) : (fresh hosts).Inv := by
  have hthreads : ∀ (t : ThreadId) (th : Thread), (fresh hosts).threads[t]? = some th →
      th.holds = [] ∧ th.refs = [] := by
    intro t th ht
    rcases List.mem_append.mp (List.mem_of_getElem? ht) with hth | hth
    · obtain ⟨_, _, rfl⟩ := List.mem_map.mp hth
      exact ⟨rfl, rfl⟩
    · simp only [List.mem_cons, List.not_mem_nil, or_false] at hth
      rcases hth with rfl | rfl
      · exact ⟨rfl, rfl⟩
      · exact ⟨rfl, rfl⟩
  refine { owned := ?_, known := ?_, named := ?_ }
  · intro l t
    refine iff_of_false (by simp [fresh]) ?_
    rintro ⟨th, ht, hl⟩
    rw [(hthreads t th ht).1] at hl
    cases hl
  · intro t th ht k hk
    rw [(hthreads t th ht).2] at hk
    cases hk
  · intro w hw k hk
    obtain ⟨i, hi, rfl⟩ := List.mem_mapIdx.mp hw
    obtain rfl : k = i := by simpa [SocketWorker.refs] using hk
    exact fresh_worker hi

theorem inv_of_run {hosts : List String} {tr : List (SystemEvent × Unit)}
    (hrun : machine.Run (fresh hosts) tr s) : s.Inv := by
  refine hrun.invariant (I := fun _ s => s.Inv) (fresh_inv hosts) ?_
  intro tr t t' e o _ ih hstep
  exact ih.step hstep

/-! ## The wait-for graph -/

/-- What a thread is waiting to get. -/
def wants (s : System) (t : ThreadId) : Option Resource :=
  s.threads[t]?.bind fun th => th.instr.wants

/-- Whom a resource is waited for from: the holder of a mutex, the thread of a worker. -/
def holder (s : System) : Resource → Option ThreadId
  | .lock l => s.owner l
  | .thread k => some k

/-- A thread waits for a worker that it knows. -/
theorem known_of_wants {k : ThreadId} (h : th.instr.wants = some (.thread k)) : k ∈ th.refs := by
  have hsound := instr_sound th
  cases hinstr : th.instr with
  | await j next =>
      rw [hinstr] at hsound h
      cases h
      exact hsound.1
  | join j next =>
      rw [hinstr] at hsound h
      cases h
      exact hsound.1
  | _ =>
      rw [hinstr] at h
      cases h

/-- What a thread waits for comes before what the thread it waits for waits for. -/
theorem Inv.ranked (h : s.Inv) : WaitFor.Ranked s.wants s.holder Resource.rank := by
  intro t u r r' ht hu hr'
  obtain ⟨th, hth, hwants⟩ := Option.bind_eq_some_iff.mp ht
  obtain ⟨th', hth', hwants'⟩ := Option.bind_eq_some_iff.mp hr'
  cases r with
  | lock l =>
      obtain ⟨x, hx, hl⟩ := (h.owned l u).mp hu
      obtain rfl := Option.some.inj (hx.symm.trans hth')
      exact ascends x l hl r' hwants'
  | thread k =>
      obtain rfl := Option.some.inj hu
      obtain ⟨mailbox, pc, hk⟩ := h.known t th hth k (known_of_wants hwants)
      obtain rfl := Option.some.inj (hk.symm.trans hth')
      exact worker_ascends mailbox pc hwants' k

/-- **No circular wait.**  In no state of a run is there a circle of threads each of which
waits for the next. -/
theorem no_circular_wait {hosts : List String} {tr : List (SystemEvent × Unit)}
    (hrun : machine.Run (fresh hosts) tr s) (t : ThreadId) :
    ¬ Relation.TransGen (WaitFor.Edge s.wants s.holder) t t :=
  (inv_of_run hrun).ranked.acyclic t

end inv

/-- `is_connected` waits for the status of a worker, the worker with a message for
`pending`, and `pending` is with the sweep. -/
theorem chain_not_circular : ∃ tr s,
    machine.exec (fresh ["ws://a"])
      [.spawn, .call 3 .isConnected, .run 3 true 0, .run 3 true 0, .run 3 true 0, .receive 0 [],
        .run 1 true 0, .run 1 true 0, .run 1 true 1, .run 1 true 0] = some (tr, s) ∧
    WaitFor.Edge s.wants s.holder 3 0 ∧ WaitFor.Edge s.wants s.holder 0 1 ∧
    ∀ t, ¬ Relation.TransGen (WaitFor.Edge s.wants s.holder) t t := by
  have hrun : machine.Run (fresh ["ws://a"]) _ _ :=
    Mealy.run_of_exec (show machine.exec (fresh ["ws://a"])
      [.spawn, .call 3 .isConnected, .run 3 true 0, .run 3 true 0, .run 3 true 0, .receive 0 [],
        .run 1 true 0, .run 1 true 0, .run 1 true 1, .run 1 true 0] = some (_, _) from rfl)
  refine ⟨_, _, rfl, ⟨.thread 0, rfl, rfl⟩, ⟨.lock .pending, rfl, rfl⟩, ?_⟩
  intro t
  exact no_circular_wait hrun t

end System

end Ethereyum
