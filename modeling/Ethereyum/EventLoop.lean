/-
# `EventLoop` — the thread of a socket worker, poll by poll

`SocketWorker::connect` spawns a thread and waits until it offers its connection.  From then on
the thread polls one future, the `select` of two streams that are each worked off by a
`for_each`:

    write_stream   takes from the mailbox up to a `Stop`, answers what asks for a reply, and
                   hands the texts and binaries to `write_message`
    read_stream    takes from the transport, decodes, and dispatches

    connecting ──→ offering ──→ writing ──→ reading ──→ parked ──→ writing
                                   mailbox empty   would block    woken

Senders post at any moment, also between two turns of the loop; what they do besides is to
notify the thread, if it has found the mailbox empty before.  A step here is one turn of one of
the two loops, so that every interleaving of the senders with the thread is a run.

Three things are shown of all of them.  Nothing is written that was not posted, nothing twice,
nothing out of order and nothing behind a `Stop` (`posted_in_order`); the reader is `readStream`
on what the transport returned, whatever is written meanwhile (`reads_as_stream`); and a thread
that is given its turns and whose transport blocks again and again takes every letter that was
accepted, or ends (`letters_taken`).
-/
import Ethereyum.Probe
import Ethereyum.Reader

namespace Ethereyum

/-! ## The thread -/

/-- How the thread ended. -/
inductive Exit where
  /-- the handshake failed -/
  | refused
  /-- `conn_tx.send(true).unwrap()`, when nobody waits any more -/
  | unwrapped
  /-- it took a `Stop` -/
  | stopped
  /-- the mailbox is empty and no sender is left -/
  | hungUp
  /-- an error of the transport -/
  | failed
  /-- `unreachable!` in `handle_message` -/
  | unreachable
  deriving DecidableEq

/-- Where the thread is. -/
inductive Phase where
  /-- `tcp::connect_async` -/
  | connecting
  /-- `conn_tx.send(true)`, a rendezvous -/
  | offering
  /-- `write_stream` is polled -/
  | writing
  /-- `write_stream` was not ready, and `read_stream` is polled -/
  | reading
  /-- neither was ready -/
  | parked
  | ended (exit : Exit)
  deriving DecidableEq

/-- The thread that called `connect`. -/
inductive Opener where
  | waiting
  | opened
  /-- its time was up: it returned `ConnectError` -/
  | gaveUp
  deriving DecidableEq

/-- A connection being made or in use. -/
structure EventLoop where
  opener : Opener
  phase : Phase
  mailbox : List Letter
  /-- a sender of the mailbox is left -/
  senders : Bool
  /-- the thread was notified since it found the mailbox empty -/
  notified : Bool

inductive LoopEvent where
  /-- the handshake is over -/
  | handshake (ok : Bool)
  /-- the opener calls `try_recv` -/
  | tryRecv
  /-- the opener's time is up -/
  | timeUp
  /-- somebody sends to the mailbox -/
  | post (m : Letter)
  /-- the last sender goes out of scope -/
  | hangUp
  /-- the thread's next turn; `read` is what `read_message` returns, should it be called -/
  | work (read : Except WsError Message)
  /-- the thread is woken -/
  | wake
  /-- something happens elsewhere -/
  | idle

/-- What a step is reported as. -/
inductive LoopEffect where
  | quiet
  | accepted (m : Letter)
  | refused (m : Letter)
  /-- handed to `write_message`, whose result is only logged -/
  | wrote (msg : Message)
  /-- the reply of the `i`-th question was sent -/
  | replied (i : Nat)
  | read (rs : List RpcResponse)
  /-- the letters left in the mailbox go with the thread -/
  | ended (exit : Exit) (lost : List Letter)

/-- The message `write_stream` makes of a request. -/
def SocketRequest.message : SocketRequest → Option Message
  | .text s => some (.text s)
  | .binary bytes => some (.binary bytes)
  | _ => none

/-- The reply a letter asks for. -/
def Letter.question : Letter → Option Nat
  | (.connectedStatus, i) => i
  | (.ping, i) => i
  | _ => none

/-- The thread got the connection through to its loop. -/
def Phase.serves : Phase → Bool
  | .connecting => false
  | .offering => false
  | .ended .refused => false
  | .ended .unwrapped => false
  | _ => true

/-- What `write_stream` does with a letter that is no `Stop`. -/
def Letter.handled (m : Letter) : LoopEffect :=
  match m.1.message, m.question with
  | some msg, _ => .wrote msg
  | none, some i => .replied i
  | none, none => .quiet

namespace EventLoop

/-- `SocketWorker::connect`, when the thread is spawned. -/
def start : EventLoop :=
  { opener := .waiting, phase := .connecting, mailbox := [], senders := true, notified := false }

/-- The thread polls its two streams, or waits until it is woken. -/
def inLoop (s : EventLoop) : Bool :=
  match s.phase with
  | .writing => true
  | .reading => true
  | .parked => true
  | _ => false

/-- The thread ends, with the letters `lost` unread. -/
def finish (s : EventLoop) (exit : Exit) (lost : List Letter) : LoopEffect × EventLoop :=
  (.ended exit lost, { s with phase := .ended exit, mailbox := [] })

/-- One turn of `write_stream`: `take_while`, `filter_map` and `for_each` on the next request. -/
def writeTurn (s : EventLoop) : LoopEffect × EventLoop :=
  match s.mailbox with
  | [] => if s.senders then (.quiet, { s with phase := .reading }) else s.finish .hungUp []
  | m :: rest =>
      match m.1 with
      | .stop => s.finish .stopped (m :: rest)
      | _ => (m.handled, { s with mailbox := rest })

/-- One turn of `read_stream`. -/
def readTurn (C : Codec) (s : EventLoop) (read : Except WsError Message) :
    LoopEffect × EventLoop :=
  match webSocketPoll read with
  | .error _ => s.finish .failed s.mailbox
  | .ok .notReady => (.read [], { s with phase := .parked })
  | .ok (.ready none) => s.finish .failed s.mailbox
  | .ok (.ready (some msg)) =>
      match handleMessage C msg with
      | none => s.finish .unreachable s.mailbox
      | some decoded => (.read (dispatched decoded), s)

/-- A sender notifies the thread, if it waits for the mailbox. -/
def notify (s : EventLoop) : EventLoop :=
  { s with notified := s.notified || decide (s.phase ≠ .writing) }

/-- The connection as a machine. -/
def machine (C : Codec) : Mealy EventLoop LoopEvent LoopEffect where
  step s
    | .handshake ok =>
        match s.phase with
        | .connecting => some (if ok then (.quiet, { s with phase := .offering })
            else s.finish .refused [])
        | _ => none
    | .tryRecv =>
        match s.opener, s.phase with
        | .waiting, .offering => some (.quiet, { s with opener := .opened, phase := .writing })
        | .waiting, _ => some (.quiet, s)
        | _, _ => none
    | .timeUp =>
        match s.opener with
        | .waiting => some (.quiet, { s with opener := .gaveUp, senders := false })
        | _ => none
    | .post m =>
        match s.opener, s.senders with
        | .opened, true =>
            some (if s.inLoop then (.accepted m, { s.notify with mailbox := s.mailbox ++ [m] })
              else (.refused m, s))
        | _, _ => none
    | .hangUp =>
        match s.opener, s.senders with
        | .opened, true => some (.quiet, { s.notify with senders := false })
        | _, _ => none
    | .work read =>
        match s.phase with
        | .offering => if s.opener = .gaveUp then some (s.finish .unwrapped []) else none
        | .writing => some s.writeTurn
        | .reading => some (s.readTurn C read)
        | _ => none
    | .wake =>
        match s.phase with
        | .parked => some (.quiet, { s with phase := .writing, notified := false })
        | _ => none
    | .idle => some (.quiet, s)

/-- What a step can do. -/
inductive Turns (C : Codec) (s : EventLoop) : LoopEvent → LoopEffect → EventLoop → Prop
  | shakes (phase_eq : s.phase = .connecting) :
      Turns C s (.handshake true) .quiet { s with phase := .offering }
  | refuses (phase_eq : s.phase = .connecting) :
      Turns C s (.handshake false) (.ended .refused []) (s.finish .refused []).2
  | takesOver (opener_eq : s.opener = .waiting) (phase_eq : s.phase = .offering) :
      Turns C s .tryRecv .quiet { s with opener := .opened, phase := .writing }
  | retries (opener_eq : s.opener = .waiting) (phase_ne : s.phase ≠ .offering) :
      Turns C s .tryRecv .quiet s
  | givesUp (opener_eq : s.opener = .waiting) :
      Turns C s .timeUp .quiet { s with opener := .gaveUp, senders := false }
  | accepts (m : Letter) (opener_eq : s.opener = .opened) (senders_eq : s.senders = true)
      (inLoop_eq : s.inLoop = true) :
      Turns C s (.post m) (.accepted m) { s.notify with mailbox := s.mailbox ++ [m] }
  | rejects (m : Letter) (opener_eq : s.opener = .opened) (senders_eq : s.senders = true)
      (inLoop_eq : s.inLoop = false) :
      Turns C s (.post m) (.refused m) s
  | hangsUp (opener_eq : s.opener = .opened) (senders_eq : s.senders = true) :
      Turns C s .hangUp .quiet { s.notify with senders := false }
  | unwraps (read : Except WsError Message) (phase_eq : s.phase = .offering)
      (opener_eq : s.opener = .gaveUp) :
      Turns C s (.work read) (.ended .unwrapped []) (s.finish .unwrapped []).2
  | drains (read : Except WsError Message) (phase_eq : s.phase = .writing)
      (mailbox_eq : s.mailbox = []) (senders_eq : s.senders = true) :
      Turns C s (.work read) .quiet { s with phase := .reading }
  | ends (read : Except WsError Message) (phase_eq : s.phase = .writing)
      (mailbox_eq : s.mailbox = []) (senders_eq : s.senders = false) :
      Turns C s (.work read) (.ended .hungUp []) (s.finish .hungUp []).2
  | stops (read : Except WsError Message) (reply : Option Nat) (rest : List Letter)
      (phase_eq : s.phase = .writing) (mailbox_eq : s.mailbox = (.stop, reply) :: rest) :
      Turns C s (.work read) (.ended .stopped ((.stop, reply) :: rest)) (s.finish .stopped []).2
  | takes (read : Except WsError Message) (m : Letter) (rest : List Letter)
      (phase_eq : s.phase = .writing) (mailbox_eq : s.mailbox = m :: rest)
      (goes : m.1 ≠ .stop) :
      Turns C s (.work read) m.handled { s with mailbox := rest }
  | blocks (phase_eq : s.phase = .reading) :
      Turns C s (.work (.error .wouldBlock)) (.read []) { s with phase := .parked }
  | dispatches (msg : Message) (decoded : Except Error (List RpcResponse))
      (phase_eq : s.phase = .reading) (decodes : handleMessage C msg = some decoded) :
      Turns C s (.work (.ok msg)) (.read (dispatched decoded)) s
  | fails (phase_eq : s.phase = .reading) :
      Turns C s (.work (.error .other)) (.ended .failed s.mailbox) (s.finish .failed []).2
  | breaks (msg : Message) (phase_eq : s.phase = .reading)
      (panics : handleMessage C msg = none) :
      Turns C s (.work (.ok msg)) (.ended .unreachable s.mailbox) (s.finish .unreachable []).2
  | wakes (phase_eq : s.phase = .parked) :
      Turns C s .wake .quiet { s with phase := .writing, notified := false }
  | idles : Turns C s .idle .quiet s

section turns
variable {C : Codec} {s s' : EventLoop} {e : LoopEvent} {o : LoopEffect}

theorem writeTurn_turns (hphase : s.phase = .writing) (read : Except WsError Message) :
    Turns C s (.work read) s.writeTurn.1 s.writeTurn.2 := by
  unfold writeTurn
  split
  · rename_i hmailbox
    split
    · rename_i hsenders
      exact .drains read hphase hmailbox hsenders
    · rename_i hsenders
      exact .ends read hphase hmailbox (Bool.eq_false_iff.mpr hsenders)
  · rename_i m rest hmailbox
    obtain ⟨req, reply⟩ := m
    cases req with
    | stop => exact .stops read reply rest hphase hmailbox
    | _ => exact .takes read _ rest hphase hmailbox (by simp)

theorem readTurn_turns (hphase : s.phase = .reading) (read : Except WsError Message) :
    Turns C s (.work read) (s.readTurn C read).1 (s.readTurn C read).2 := by
  cases read with
  | error err =>
      cases err with
      | wouldBlock => exact .blocks hphase
      | other => exact .fails hphase
  | ok msg =>
      simp only [readTurn, webSocketPoll, toAsync, Except.map]
      cases hdecoded : handleMessage C msg with
      | none => exact .breaks msg hphase hdecoded
      | some decoded => exact .dispatches msg decoded hphase hdecoded

theorem turns_of_step (hstep : (machine C).step s e = some (o, s')) : Turns C s e o s' := by
  cases e with
  | handshake ok =>
      simp only [machine] at hstep
      split at hstep
      · rename_i hphase
        cases ok with
        | true =>
            cases hstep
            exact .shakes hphase
        | false =>
            cases hstep
            exact .refuses hphase
      · cases hstep
  | tryRecv =>
      simp only [machine] at hstep
      split at hstep
      · rename_i hopener hphase
        cases hstep
        exact .takesOver hopener hphase
      · rename_i hopener hphase
        cases hstep
        exact .retries hopener hphase
      · cases hstep
  | timeUp =>
      simp only [machine] at hstep
      split at hstep
      · rename_i hopener
        cases hstep
        exact .givesUp hopener
      · cases hstep
  | post m =>
      simp only [machine] at hstep
      split at hstep
      · rename_i hopener hsenders
        cases hloop : s.inLoop with
        | true =>
            simp only [hloop, if_true, Option.some.injEq, Prod.mk.injEq] at hstep
            obtain ⟨rfl, rfl⟩ := hstep
            exact .accepts m hopener hsenders hloop
        | false =>
            simp only [hloop, Bool.false_eq_true, if_false, Option.some.injEq,
              Prod.mk.injEq] at hstep
            obtain ⟨rfl, rfl⟩ := hstep
            exact .rejects m hopener hsenders hloop
      · cases hstep
  | hangUp =>
      simp only [machine] at hstep
      split at hstep
      · rename_i hopener hsenders
        cases hstep
        exact .hangsUp hopener hsenders
      · cases hstep
  | work read =>
      simp only [machine] at hstep
      split at hstep
      · rename_i hphase
        split at hstep
        · rename_i hopener
          cases hstep
          exact .unwraps read hphase hopener
        · cases hstep
      · rename_i hphase
        have hturn := writeTurn_turns (C := C) hphase read
        rwa [Option.some.inj hstep] at hturn
      · rename_i hphase
        have hturn := readTurn_turns (C := C) hphase read
        rwa [Option.some.inj hstep] at hturn
      · cases hstep
  | wake =>
      simp only [machine] at hstep
      split at hstep
      · rename_i hphase
        cases hstep
        exact .wakes hphase
      · cases hstep
  | idle =>
      cases hstep
      exact .idles

end turns

/-! ## What a run has done -/

/-- The letters accepted along a trace. -/
def accepted (tr : List (LoopEvent × LoopEffect)) : List Letter :=
  tr.filterMap fun e => match e.2 with
    | .accepted m => some m
    | _ => none

/-- The messages handed to `write_message`. -/
def written (tr : List (LoopEvent × LoopEffect)) : List Message :=
  tr.filterMap fun e => match e.2 with
    | .wrote msg => some msg
    | _ => none

/-- The questions answered. -/
def replied (tr : List (LoopEvent × LoopEffect)) : List Nat :=
  tr.filterMap fun e => match e.2 with
    | .replied i => some i
    | _ => none

/-- The questions whose reply was canceled. -/
def canceled (tr : List (LoopEvent × LoopEffect)) : List Nat :=
  tr.flatMap fun e => match e.2 with
    | .ended _ lost => lost.filterMap Letter.question
    | _ => []

/-! ## What was posted, and what became of it -/

/-- The letters accepted so far: those the thread took, and those it has left. -/
structure Ledger (tr : List (LoopEvent × LoopEffect)) (s : EventLoop) (taken left : List Letter) :
    Prop where
  accepted : accepted tr = taken ++ left
  written : written tr = taken.filterMap fun m => m.1.message
  replied : replied tr = taken.filterMap Letter.question
  goes : ∀ m ∈ taken, m.1 ≠ .stop
  unread : (∀ exit, s.phase ≠ .ended exit) → s.mailbox = left ∧ canceled tr = []
  lost : ∀ exit, s.phase = .ended exit →
    s.mailbox = [] ∧ canceled tr = left.filterMap Letter.question
  stopped : s.phase = .ended .stopped → ∃ reply rest, left = (.stop, reply) :: rest
  hungUp : s.phase = .ended .hungUp → left = []

section ledger
variable {C : Codec} {s s' : EventLoop} {e : LoopEvent} {o : LoopEffect}
  {tr : List (LoopEvent × LoopEffect)} {taken left : List Letter}

theorem accepted_snoc (tr : List (LoopEvent × LoopEffect)) (e : LoopEvent) (o : LoopEffect) :
    accepted (tr ++ [(e, o)]) = accepted tr ++ accepted [(e, o)] :=
  List.filterMap_append

theorem written_snoc (tr : List (LoopEvent × LoopEffect)) (e : LoopEvent) (o : LoopEffect) :
    written (tr ++ [(e, o)]) = written tr ++ written [(e, o)] :=
  List.filterMap_append

theorem replied_snoc (tr : List (LoopEvent × LoopEffect)) (e : LoopEvent) (o : LoopEffect) :
    replied (tr ++ [(e, o)]) = replied tr ++ replied [(e, o)] :=
  List.filterMap_append

theorem canceled_snoc (tr : List (LoopEvent × LoopEffect)) (e : LoopEvent) (o : LoopEffect) :
    canceled (tr ++ [(e, o)]) = canceled tr ++ canceled [(e, o)] :=
  List.flatMap_append

/-- A step that is not about the mailbox. -/
theorem Ledger.keep (h : Ledger tr s taken left) (haccepted : EventLoop.accepted [(e, o)] = [])
    (hwritten : EventLoop.written [(e, o)] = []) (hreplied : EventLoop.replied [(e, o)] = [])
    (hcanceled : EventLoop.canceled [(e, o)] = []) (hmailbox : s'.mailbox = s.mailbox)
    (hphase : ∀ exit, s'.phase = .ended exit ↔ s.phase = .ended exit) :
    Ledger (tr ++ [(e, o)]) s' taken left where
  accepted := by rw [accepted_snoc, haccepted, List.append_nil, h.accepted]
  written := by rw [written_snoc, hwritten, List.append_nil, h.written]
  replied := by rw [replied_snoc, hreplied, List.append_nil, h.replied]
  goes := h.goes
  unread := by
    intro hgoing
    rw [hmailbox, canceled_snoc, hcanceled, List.append_nil]
    exact h.unread fun exit hexit => hgoing exit ((hphase exit).mpr hexit)
  lost := by
    intro exit hexit
    rw [hmailbox, canceled_snoc, hcanceled, List.append_nil]
    exact h.lost exit ((hphase exit).mp hexit)
  stopped := fun hexit => h.stopped ((hphase _).mp hexit)
  hungUp := fun hexit => h.hungUp ((hphase _).mp hexit)

/-- The thread ends, and what it has left is lost. -/
theorem Ledger.finish (h : Ledger tr s taken left) (hgoing : ∀ exit, s.phase ≠ .ended exit)
    {exit : Exit} (hstopped : exit = .stopped → ∃ reply rest, left = (.stop, reply) :: rest)
    (hhungUp : exit = .hungUp → left = []) :
    Ledger (tr ++ [(e, .ended exit left)]) (s.finish exit []).2 taken left where
  accepted := by rw [accepted_snoc, h.accepted]; exact List.append_nil _
  written := by rw [written_snoc, h.written]; exact List.append_nil _
  replied := by rw [replied_snoc, h.replied]; exact List.append_nil _
  goes := h.goes
  unread hnot := absurd rfl (hnot exit)
  lost _ _ := by
    rw [canceled_snoc, (h.unread hgoing).2]
    exact ⟨rfl, List.append_nil _⟩
  stopped hexit := hstopped (Phase.ended.inj hexit)
  hungUp hexit := hhungUp (Phase.ended.inj hexit)

/-- The next letter is taken. -/
theorem Ledger.take {m : Letter} (h : Ledger tr s taken (m :: left))
    (hphase : s.phase = .writing) (hgoes : m.1 ≠ .stop) :
    Ledger (tr ++ [(e, m.handled)]) { s with mailbox := left } (taken ++ [m]) left := by
  have hcanceled : EventLoop.canceled [(e, m.handled)] = [] := by
    unfold Letter.handled
    split <;> rfl
  have haccepted : EventLoop.accepted [(e, m.handled)] = [] := by
    unfold Letter.handled
    split <;> rfl
  obtain ⟨hmailbox, hnone⟩ := h.unread (by simp [hphase])
  refine ⟨?_, ?_, ?_, ?_, ?_, ?_, ?_, ?_⟩
  · rw [accepted_snoc, haccepted, List.append_nil, h.accepted, List.append_assoc]
    rfl
  · rw [written_snoc, h.written, List.filterMap_append]
    obtain ⟨req, reply⟩ := m
    cases req <;> cases reply <;> rfl
  · rw [replied_snoc, h.replied, List.filterMap_append]
    obtain ⟨req, reply⟩ := m
    cases req <;> cases reply <;> rfl
  · intro m' hm'
    rcases List.mem_append.mp hm' with hm' | hm'
    · exact h.goes m' hm'
    · obtain rfl := List.mem_singleton.mp hm'
      exact hgoes
  · intro _
    rw [canceled_snoc, hcanceled, hnone]
    exact ⟨rfl, rfl⟩
  · intro exit hexit
    exact absurd (hphase.symm.trans hexit) (by simp)
  · intro hexit
    exact absurd (hphase.symm.trans hexit) (by simp)
  · intro hexit
    exact absurd (hphase.symm.trans hexit) (by simp)

theorem Ledger.post (h : Ledger tr s taken left) (m : Letter) (hloop : s.inLoop = true) :
    Ledger (tr ++ [(.post m, .accepted m)]) { s.notify with mailbox := s.mailbox ++ [m] } taken
      (left ++ [m]) := by
  have hgoing : ∀ exit, s.phase ≠ .ended exit := by
    intro exit hexit
    rw [inLoop, hexit] at hloop
    cases hloop
  obtain ⟨hmailbox, hnone⟩ := h.unread hgoing
  refine ⟨?_, ?_, ?_, h.goes, ?_, ?_, ?_, ?_⟩
  · rw [accepted_snoc, h.accepted, List.append_assoc]
    rfl
  · rw [written_snoc, h.written]
    exact List.append_nil _
  · rw [replied_snoc, h.replied]
    exact List.append_nil _
  · intro _
    rw [canceled_snoc, hnone, hmailbox]
    exact ⟨rfl, rfl⟩
  · intro exit hexit
    exact absurd hexit (hgoing exit)
  · intro hexit
    exact absurd hexit (hgoing _)
  · intro hexit
    exact absurd hexit (hgoing _)

/-- The thread comes to its loop exactly when `connect` returns. -/
theorem serves_step (h : s.phase.serves = true ↔ s.opener = .opened)
    (hstep : Turns C s e o s') : s'.phase.serves = true ↔ s'.opener = .opened := by
  cases hstep with
  | shakes phase_eq => simpa [Phase.serves, phase_eq] using h
  | refuses phase_eq => simpa [Phase.serves, phase_eq, finish] using h
  | takesOver opener_eq phase_eq => simp [Phase.serves]
  | retries opener_eq phase_ne => exact h
  | givesUp opener_eq => simpa [opener_eq] using h
  | unwraps read phase_eq opener_eq => simp [Phase.serves, finish, opener_eq]
  | accepts m opener_eq senders_eq inLoop_eq => exact h
  | rejects m opener_eq senders_eq inLoop_eq => exact h
  | hangsUp opener_eq senders_eq => exact h
  | takes read m rest phase_eq mailbox_eq goes => exact h
  | dispatches msg decoded phase_eq decodes => exact h
  | drains read phase_eq mailbox_eq senders_eq => simpa [Phase.serves, phase_eq] using h
  | ends read phase_eq mailbox_eq senders_eq => simpa [Phase.serves, phase_eq, finish] using h
  | stops read reply rest phase_eq mailbox_eq => simpa [Phase.serves, phase_eq, finish] using h
  | blocks phase_eq => simpa [Phase.serves, phase_eq] using h
  | fails phase_eq => simpa [Phase.serves, phase_eq, finish] using h
  | breaks msg phase_eq panics => simpa [Phase.serves, phase_eq, finish] using h
  | wakes phase_eq => simpa [Phase.serves, phase_eq] using h
  | idles => exact h

/-- Nobody posts before `connect` has returned. -/
theorem idle_step (h : s.opener ≠ .opened → accepted tr = []) (hstep : Turns C s e o s') :
    s'.opener ≠ .opened → accepted (tr ++ [(e, o)]) = [] := by
  intro hopener
  have hkeep : s.opener ≠ .opened → accepted [(e, o)] = [] → accepted (tr ++ [(e, o)]) = [] := by
    intro hbefore hnone
    rw [accepted_snoc, h hbefore, hnone]
    rfl
  cases hstep with
  | shakes phase_eq => exact hkeep hopener rfl
  | refuses phase_eq => exact hkeep hopener rfl
  | takesOver opener_eq phase_eq => exact absurd rfl hopener
  | retries opener_eq phase_ne => exact hkeep hopener rfl
  | givesUp opener_eq => exact hkeep (by simp [opener_eq]) rfl
  | unwraps read phase_eq opener_eq => exact hkeep hopener rfl
  | accepts m opener_eq senders_eq inLoop_eq => exact absurd opener_eq hopener
  | rejects m opener_eq senders_eq inLoop_eq => exact hkeep hopener rfl
  | hangsUp opener_eq senders_eq => exact hkeep hopener rfl
  | takes read m rest phase_eq mailbox_eq goes =>
      refine hkeep hopener ?_
      unfold Letter.handled
      split <;> rfl
  | dispatches msg decoded phase_eq decodes => exact hkeep hopener rfl
  | drains read phase_eq mailbox_eq senders_eq => exact hkeep hopener rfl
  | ends read phase_eq mailbox_eq senders_eq => exact hkeep hopener rfl
  | stops read reply rest phase_eq mailbox_eq => exact hkeep hopener rfl
  | blocks phase_eq => exact hkeep hopener rfl
  | fails phase_eq => exact hkeep hopener rfl
  | breaks msg phase_eq panics => exact hkeep hopener rfl
  | wakes phase_eq => exact hkeep hopener rfl
  | idles => exact hkeep hopener rfl

theorem Ledger.step (h : Ledger tr s taken left)
    (hserves : s.phase.serves = true ↔ s.opener = .opened)
    (hidle : s.opener ≠ .opened → EventLoop.accepted tr = []) (hstep : Turns C s e o s') :
    ∃ taken' left', Ledger (tr ++ [(e, o)]) s' taken' left' ∧ taken <+: taken' := by
  -- before `connect` has returned there is nothing to lose
  have hnothing : s.phase.serves = false → left = [] := by
    intro hphase
    have hopener : s.opener ≠ .opened := fun heq => by
      rw [hserves.mpr heq] at hphase
      cases hphase
    exact (List.append_eq_nil_iff.mp (h.accepted.symm.trans (hidle hopener))).2
  have hsame : Ledger (tr ++ [(e, o)]) s' taken left →
      ∃ taken' left', Ledger (tr ++ [(e, o)]) s' taken' left' ∧ taken <+: taken' :=
    fun h' => ⟨taken, left, h', List.prefix_rfl⟩
  cases hstep with
  | shakes phase_eq =>
      exact hsame (h.keep rfl rfl rfl rfl rfl (by simp [phase_eq]))
  | refuses phase_eq =>
      obtain rfl := hnothing (by rw [phase_eq]; rfl)
      exact hsame (h.finish (by simp [phase_eq]) (by simp) (by simp))
  | takesOver opener_eq phase_eq =>
      exact hsame (h.keep rfl rfl rfl rfl rfl (by simp [phase_eq]))
  | retries opener_eq phase_ne =>
      exact hsame (h.keep rfl rfl rfl rfl rfl fun _ => Iff.rfl)
  | givesUp opener_eq => exact hsame (h.keep rfl rfl rfl rfl rfl fun _ => Iff.rfl)
  | unwraps read phase_eq opener_eq =>
      obtain rfl := hnothing (by rw [phase_eq]; rfl)
      exact hsame (h.finish (by simp [phase_eq]) (by simp) (by simp))
  | accepts m opener_eq senders_eq inLoop_eq => exact ⟨_, _, h.post m inLoop_eq, List.prefix_rfl⟩
  | rejects m opener_eq senders_eq inLoop_eq =>
      exact hsame (h.keep rfl rfl rfl rfl rfl fun _ => Iff.rfl)
  | hangsUp opener_eq senders_eq => exact hsame (h.keep rfl rfl rfl rfl rfl fun _ => Iff.rfl)
  | takes read m rest phase_eq mailbox_eq goes =>
      obtain rfl := mailbox_eq.symm.trans (h.unread (by simp [phase_eq])).1
      exact ⟨_, _, h.take phase_eq goes, List.prefix_append _ _⟩
  | dispatches msg decoded phase_eq decodes =>
      exact hsame (h.keep rfl rfl rfl rfl rfl fun _ => Iff.rfl)
  | drains read phase_eq mailbox_eq senders_eq =>
      exact hsame (h.keep rfl rfl rfl rfl rfl (by simp [phase_eq]))
  | ends read phase_eq mailbox_eq senders_eq =>
      obtain rfl := mailbox_eq.symm.trans (h.unread (by simp [phase_eq])).1
      exact hsame (h.finish (by simp [phase_eq]) (by simp) (by simp))
  | stops read reply rest phase_eq mailbox_eq =>
      obtain rfl := mailbox_eq.symm.trans (h.unread (by simp [phase_eq])).1
      exact hsame (h.finish (by simp [phase_eq]) (fun _ => ⟨reply, rest, rfl⟩) (by simp))
  | blocks phase_eq =>
      exact hsame (h.keep rfl rfl rfl rfl rfl (by simp [phase_eq]))
  | fails phase_eq =>
      rw [(h.unread (by simp [phase_eq])).1]
      exact ⟨_, _, h.finish (by simp [phase_eq]) (by simp) (by simp), List.prefix_rfl⟩
  | breaks msg phase_eq panics =>
      rw [(h.unread (by simp [phase_eq])).1]
      exact ⟨_, _, h.finish (by simp [phase_eq]) (by simp) (by simp), List.prefix_rfl⟩
  | wakes phase_eq =>
      exact hsame (h.keep rfl rfl rfl rfl rfl (by simp [phase_eq]))
  | idles => exact hsame (h.keep rfl rfl rfl rfl rfl fun _ => Iff.rfl)

theorem ledger_of_run (hrun : (machine C).Run start tr s) :
    (s.phase.serves = true ↔ s.opener = .opened) ∧
      (s.opener ≠ .opened → accepted tr = []) ∧ ∃ taken left, Ledger tr s taken left := by
  refine hrun.invariant (I := fun tr (s : EventLoop) =>
    (s.phase.serves = true ↔ s.opener = .opened) ∧
    (s.opener ≠ .opened → accepted tr = []) ∧ ∃ taken left, Ledger tr s taken left) ?_ ?_
  · refine ⟨by simp [start, Phase.serves], fun _ => rfl, [], [], ?_⟩
    refine ⟨rfl, rfl, rfl, ?_, fun _ => ⟨rfl, rfl⟩, ?_, ?_, fun _ => rfl⟩
    · intro m hm
      cases hm
    · intro exit hexit
      cases hexit
    · intro hexit
      cases hexit
  · rintro tr t t' e o _ ⟨hserves, hidle, taken, left, h⟩ hstep
    have hturn := turns_of_step hstep
    obtain ⟨taken', left', h', _⟩ := h.step hserves hidle hturn
    exact ⟨serves_step hserves hturn, idle_step hidle hturn, taken', left', h'⟩

/-- **The thread comes to its loop exactly when `connect` returned the connection, and what it
writes is what was posted.**  The letters accepted are those it took and those it has left, in
the order of posting.  The texts and binaries of the first were written and their questions
answered, each once; those left are in the mailbox, or their questions were canceled when the
thread ended.  A thread that was stopped took no letter behind the `Stop`, and one that ended
because its senders are gone left none. -/
theorem posted_in_order (hrun : (machine C).Run start tr s) :
    (s.phase.serves = true ↔ s.opener = .opened) ∧ ∃ taken left, Ledger tr s taken left :=
  ⟨(ledger_of_run hrun).1, (ledger_of_run hrun).2.2⟩

end ledger

/-- A text and a question are posted, and then a `Stop` with another text behind it. -/
theorem stopped_in_order : ∃ tr s, (machine Client.updateCodec).Run start tr s ∧
    written tr = [.text "0x1"] ∧ replied tr = [0] ∧
    ((s.phase.serves = true ↔ s.opener = .opened) ∧ ∃ taken left, Ledger tr s taken left) := by
  have hrun : (machine Client.updateCodec).Run start _ _ :=
    Mealy.run_of_exec (show (machine Client.updateCodec).exec start [.handshake true, .tryRecv,
      .post (.text "0x1", none), .post (.connectedStatus, some 0), .post (.stop, none),
      .work (.error .wouldBlock), .post (.text "0x2", none), .work (.error .wouldBlock),
      .work (.error .wouldBlock)] = some (_, _) from rfl)
  exact ⟨_, _, hrun, rfl, rfl, posted_in_order hrun⟩

/-! ## What is read -/

/-- What the transport returned, poll by poll. -/
def reads (tr : List (LoopEvent × LoopEffect)) : List (Except WsError Message) :=
  tr.filterMap fun e => match e with
    | (.work read, .read _) => some read
    | (.work read, .ended .failed _) => some read
    | (.work read, .ended .unreachable _) => some read
    | _ => none

/-- The responses dispatched. -/
def dispatches (tr : List (LoopEvent × LoopEffect)) : List RpcResponse :=
  tr.flatMap fun e => match e.2 with
    | .read rs => rs
    | _ => []

/-- The read loop goes on after `reads`, and has dispatched `rs`. -/
def GoesOn (C : Codec) (reads : List (Except WsError Message)) (rs : List RpcResponse) : Prop :=
  ∀ c more, readStream C c (reads ++ more) =
    (readStream C (c.readFrame rs) more).map fun r => (rs ++ r.1, r.2)

/-- The reader of a connection, beside `readStream`. -/
structure ReadsAs (C : Codec) (tr : List (LoopEvent × LoopEffect)) (s : EventLoop) : Prop where
  going : s.phase ≠ .ended .failed → s.phase ≠ .ended .unreachable →
    GoesOn C (reads tr) (dispatches tr)
  failed : s.phase = .ended .failed → ∀ c, readStream C c (reads tr) =
    some (dispatches tr, c.readFrame (dispatches tr))
  unreachable : s.phase = .ended .unreachable → ∀ c, readStream C c (reads tr) = none

section reads
variable {C : Codec} {s s' : EventLoop} {e : LoopEvent} {o : LoopEffect}
  {tr : List (LoopEvent × LoopEffect)}

theorem goesOn_nil : GoesOn C [] [] := by
  intro c more
  rw [List.nil_append, show c.readFrame [] = c from rfl]
  cases readStream C c more <;> rfl

theorem GoesOn.snoc {rds : List (Except WsError Message)} {rs : List RpcResponse}
    (h : GoesOn C rds rs) {read : Except WsError Message} {more : List RpcResponse}
    (hread : GoesOn C [read] more) : GoesOn C (rds ++ [read]) (rs ++ more) := by
  intro c rest
  rw [List.append_assoc, h c ([read] ++ rest), hread (c.readFrame rs) rest,
    Client.readFrame_append, Option.map_map]
  refine congrArg (fun f => Option.map f _) (funext fun r => ?_)
  simp

/-- What is read to the end. -/
theorem GoesOn.eq {rds : List (Except WsError Message)} {rs : List RpcResponse}
    (h : GoesOn C rds rs) (c : Client) : readStream C c rds = some (rs, c.readFrame rs) := by
  have hend := h c []
  rw [List.append_nil] at hend
  rw [hend]
  simp [readStream]

theorem goesOn_dispatches {msg : Message} {decoded : Except Error (List RpcResponse)}
    (hdecoded : handleMessage C msg = some decoded) :
    GoesOn C [.ok msg] (dispatched decoded) := by
  intro c more
  simp only [List.cons_append, List.nil_append, readStream, webSocketPoll, toAsync, Except.map,
    hdecoded, dispatch_eq]

theorem goesOn_blocks : GoesOn C [.error .wouldBlock] [] := by
  intro c more
  simp only [List.cons_append, List.nil_append, readStream, webSocketPoll, toAsync, Except.map]
  exact goesOn_nil c more

theorem reads_snoc (tr : List (LoopEvent × LoopEffect)) (e : LoopEvent) (o : LoopEffect) :
    reads (tr ++ [(e, o)]) = reads tr ++ reads [(e, o)] :=
  List.filterMap_append

theorem dispatches_snoc (tr : List (LoopEvent × LoopEffect)) (e : LoopEvent) (o : LoopEffect) :
    dispatches (tr ++ [(e, o)]) = dispatches tr ++ dispatches [(e, o)] :=
  List.flatMap_append

/-- A step that is not about the transport. -/
theorem ReadsAs.keep (h : ReadsAs C tr s) (hreads : reads [(e, o)] = [])
    (hdispatches : dispatches [(e, o)] = [])
    (hfailed : s'.phase = .ended .failed ↔ s.phase = .ended .failed)
    (hunreachable : s'.phase = .ended .unreachable ↔ s.phase = .ended .unreachable) :
    ReadsAs C (tr ++ [(e, o)]) s' := by
  refine ⟨?_, ?_, ?_⟩
  · intro hnf hnu
    rw [reads_snoc, dispatches_snoc, hreads, hdispatches, List.append_nil, List.append_nil]
    exact h.going (fun heq => hnf (hfailed.mpr heq)) fun heq => hnu (hunreachable.mpr heq)
  · intro hphase
    rw [reads_snoc, dispatches_snoc, hreads, hdispatches, List.append_nil, List.append_nil]
    exact h.failed (hfailed.mp hphase)
  · intro hphase
    rw [reads_snoc, hreads, List.append_nil]
    exact h.unreachable (hunreachable.mp hphase)

theorem ReadsAs.of_goesOn (hgoes : GoesOn C (reads tr) (dispatches tr))
    (hphase : ∀ exit, s.phase ≠ .ended exit) : ReadsAs C tr s where
  going _ _ := hgoes
  failed hfailed := absurd hfailed (hphase _)
  unreachable hunreachable := absurd hunreachable (hphase _)

theorem ReadsAs.step (h : ReadsAs C tr s) (hstep : Turns C s e o s') :
    ReadsAs C (tr ++ [(e, o)]) s' := by
  cases hstep with
  | shakes phase_eq => exact h.keep rfl rfl (by simp [phase_eq]) (by simp [phase_eq])
  | refuses phase_eq =>
      exact h.keep rfl rfl (by simp [phase_eq, finish]) (by simp [phase_eq, finish])
  | takesOver opener_eq phase_eq => exact h.keep rfl rfl (by simp [phase_eq]) (by simp [phase_eq])
  | retries opener_eq phase_ne => exact h.keep rfl rfl Iff.rfl Iff.rfl
  | givesUp opener_eq => exact h.keep rfl rfl Iff.rfl Iff.rfl
  | unwraps read phase_eq opener_eq =>
      exact h.keep rfl rfl (by simp [phase_eq, finish]) (by simp [phase_eq, finish])
  | accepts m opener_eq senders_eq inLoop_eq => exact h.keep rfl rfl Iff.rfl Iff.rfl
  | rejects m opener_eq senders_eq inLoop_eq => exact h.keep rfl rfl Iff.rfl Iff.rfl
  | hangsUp opener_eq senders_eq => exact h.keep rfl rfl Iff.rfl Iff.rfl
  | takes read m rest phase_eq mailbox_eq goes =>
      refine h.keep ?_ ?_ Iff.rfl Iff.rfl
      · unfold Letter.handled
        split <;> rfl
      · unfold Letter.handled
        split <;> rfl
  | drains read phase_eq mailbox_eq senders_eq =>
      exact h.keep rfl rfl (by simp [phase_eq]) (by simp [phase_eq])
  | ends read phase_eq mailbox_eq senders_eq =>
      exact h.keep rfl rfl (by simp [phase_eq, finish]) (by simp [phase_eq, finish])
  | stops read reply rest phase_eq mailbox_eq =>
      exact h.keep rfl rfl (by simp [phase_eq, finish]) (by simp [phase_eq, finish])
  | wakes phase_eq => exact h.keep rfl rfl (by simp [phase_eq]) (by simp [phase_eq])
  | idles => exact h.keep rfl rfl Iff.rfl Iff.rfl
  | blocks phase_eq =>
      have hgoes := h.going (by simp [phase_eq]) (by simp [phase_eq])
      refine .of_goesOn ?_ ?_
      · rw [reads_snoc, dispatches_snoc]
        exact hgoes.snoc goesOn_blocks
      · intro exit hexit
        cases hexit
  | dispatches msg decoded phase_eq decodes =>
      have hgoes := h.going (by simp [phase_eq]) (by simp [phase_eq])
      refine ⟨fun _ _ => ?_, fun hphase => ?_, fun hphase => ?_⟩
      · rw [reads_snoc, dispatches_snoc]
        have hread : EventLoop.dispatches [(.work (.ok msg), .read (dispatched decoded))] =
            dispatched decoded := List.append_nil _
        rw [hread]
        exact hgoes.snoc (goesOn_dispatches decodes)
      · exact absurd (phase_eq.symm.trans hphase) (by simp)
      · exact absurd (phase_eq.symm.trans hphase) (by simp)
  | fails phase_eq =>
      have hgoes := h.going (by simp [phase_eq]) (by simp [phase_eq])
      refine ⟨fun hnf _ => absurd rfl hnf, fun _ c => ?_, fun hphase => ?_⟩
      · rw [reads_snoc, dispatches_snoc]
        have hend := hgoes c [.error .other]
        simp only [readStream, webSocketPoll, toAsync, Except.map, Option.map_some,
          List.append_nil] at hend
        rw [show EventLoop.dispatches [(.work (.error .other), .ended .failed s.mailbox)] = [] from
          rfl, List.append_nil]
        exact hend
      · cases hphase
  | breaks msg phase_eq panics =>
      have hgoes := h.going (by simp [phase_eq]) (by simp [phase_eq])
      refine ⟨fun _ hnu => absurd rfl hnu, fun hphase => ?_, fun _ c => ?_⟩
      · cases hphase
      · rw [reads_snoc]
        have hend := hgoes c [.ok msg]
        simp only [readStream, webSocketPoll, toAsync, Except.map, panics, Option.map_none] at hend
        exact hend

/-- **The reader of the thread is `readStream`.**  Whatever is posted and written meanwhile, what
it dispatches is what `readStream` dispatches on the results of its own polls, and it panics
exactly when that does. -/
theorem reads_as_stream (hrun : (machine C).Run start tr s) (c : Client) :
    readStream C c (reads tr) =
      if s.phase = .ended .unreachable then none
      else some (dispatches tr, c.readFrame (dispatches tr)) := by
  have h : ReadsAs C tr s := by
    refine hrun.invariant (I := fun tr s => ReadsAs C tr s) ?_ ?_
    · refine .of_goesOn goesOn_nil ?_
      intro exit hexit
      cases hexit
    · intro tr t t' e o _ ih hstep
      exact ih.step (turns_of_step hstep)
  by_cases hunreachable : s.phase = .ended .unreachable
  · rw [if_pos hunreachable, h.unreachable hunreachable c]
  · rw [if_neg hunreachable]
    by_cases hfailed : s.phase = .ended .failed
    · exact h.failed hfailed c
    · exact (h.going hfailed hunreachable).eq c

end reads

/-- A notification is read between two letters, and then the transport fails. -/
theorem notification_read : ∃ tr s, (machine Client.updateCodec).Run start tr s ∧
    reads tr = [.ok (.text ""), .error .other] ∧
    readStream Client.updateCodec Client.new (reads tr) =
      some ([.subscription 1 (.string "0x4dfbff")], Client.new) := by
  have hrun : (machine Client.updateCodec).Run start _ _ :=
    Mealy.run_of_exec (show (machine Client.updateCodec).exec start [.handshake true, .tryRecv,
      .post (.text "0x1", none), .work (.error .wouldBlock), .work (.error .wouldBlock),
      .post (.text "0x2", none), .work (.ok (.text "")), .work (.error .other)] =
        some (_, _) from rfl)
  refine ⟨_, _, hrun, rfl, ?_⟩
  exact (reads_as_stream hrun Client.new).trans rfl

/-! ## No letter is forgotten -/

/-- There is something for `write_stream` to do. -/
def Due (s : EventLoop) : Prop := s.mailbox ≠ [] ∨ s.senders = false

/-- Who has found the mailbox empty is notified when it no longer is. -/
def Notified (s : EventLoop) : Prop :=
  s.phase = .reading ∨ s.phase = .parked → s.Due → s.notified = true

/-- The thread ended. -/
def Over (s : EventLoop) : Prop := ∃ exit, s.phase = .ended exit

section progress
variable {C : Codec} {s s' : EventLoop} {e : LoopEvent} {o : LoopEffect}

theorem Notified.step (h : s.Notified) (hserves : s.phase.serves = true ↔ s.opener = .opened)
    (hstep : Turns C s e o s') : s'.Notified := by
  have hnotify : s.notify.notified = true ∨ s.phase = .writing := by
    by_cases hphase : s.phase = .writing
    · exact Or.inr hphase
    · exact Or.inl (by simp [notify, hphase])
  cases hstep with
  | shakes phase_eq => simp [Notified]
  | refuses phase_eq => simp [Notified, finish]
  | takesOver opener_eq phase_eq => simp [Notified]
  | retries opener_eq phase_ne => exact h
  | givesUp opener_eq =>
      -- the thread is not in its loop yet
      have hphase : s.phase.serves ≠ true := fun hserved => by
        rw [hserves.mp hserved] at opener_eq
        cases opener_eq
      rintro (hreading | hparked) -
      · exact absurd (congrArg Phase.serves hreading) hphase
      · exact absurd (congrArg Phase.serves hparked) hphase
  | unwraps read phase_eq opener_eq => simp [Notified, finish]
  | accepts m opener_eq senders_eq inLoop_eq =>
      rintro hphase -
      refine hnotify.resolve_right ?_
      rcases hphase with hphase | hphase <;> simp [notify] at hphase <;> simp [hphase]
  | rejects m opener_eq senders_eq inLoop_eq => exact h
  | hangsUp opener_eq senders_eq =>
      rintro hphase -
      refine hnotify.resolve_right ?_
      rcases hphase with hphase | hphase <;> simp [notify] at hphase <;> simp [hphase]
  | takes read m rest phase_eq mailbox_eq goes => simp [Notified, phase_eq]
  | dispatches msg decoded phase_eq decodes => exact h
  | drains read phase_eq mailbox_eq senders_eq =>
      rintro - hdue
      rcases hdue with hdue | hdue
      · exact absurd mailbox_eq hdue
      · exact absurd (senders_eq.symm.trans hdue) (by simp)
  | ends read phase_eq mailbox_eq senders_eq => simp [Notified, finish]
  | stops read reply rest phase_eq mailbox_eq => simp [Notified, finish]
  | blocks phase_eq => exact fun _ hdue => h (Or.inl phase_eq) hdue
  | fails phase_eq => simp [Notified, finish]
  | breaks msg phase_eq panics => simp [Notified, finish]
  | wakes phase_eq => simp [Notified]
  | idles => exact h

/-- The loop is left with a turn of the thread only. -/
structure Fair (p : (machine C).Path start) : Prop where
  /-- a thread that can write gets its turn -/
  works : ∀ n, (p.state n).phase = .writing → ∃ m, n ≤ m ∧ ∃ read, p.input m = .work read
  /-- the transport has nothing more to read at some time, or it fails -/
  blocks : ∀ n, (p.state n).phase = .reading → ∃ m, n ≤ m ∧ (p.state m).phase ≠ .reading
  /-- a thread that was notified is woken -/
  wakes : ∀ n, (p.state n).phase = .parked → (p.state n).notified = true →
    ∃ m, n ≤ m ∧ p.input m = .wake

variable {p : (machine C).Path start} {n : Nat}

theorem path_turns (p : (machine C).Path start) (n : Nat) :
    Turns C (p.state n) (p.input n) (p.output n) (p.state (n + 1)) :=
  turns_of_step (p.step n)

theorem path_serves (p : (machine C).Path start) (n : Nat) :
    (p.state n).phase.serves = true ↔ (p.state n).opener = .opened :=
  (ledger_of_run (p.run n)).1

theorem path_notified (p : (machine C).Path start) (n : Nat) : (p.state n).Notified :=
  p.invariant (I := Notified) (by simp [Notified, start])
    (fun n h => h.step (path_serves p n) (path_turns p n)) n

/-- A thread that can write, and has something to, does. -/
theorem works_of_writing (fair : Fair p) (hphase : (p.state n).phase = .writing)
    (hdue : (p.state n).Due) : ∃ k, n ≤ k ∧ (p.state k).phase = .writing ∧ (p.state k).Due ∧
      ∃ read, p.input k = .work read := by
  obtain ⟨m, hle, hwork⟩ := fair.works n hphase
  have huntil := p.until_or (P := fun s => s.phase = .writing ∧ s.Due)
    (Q := fun k => ∃ read, p.input k = .work read) ?_ ⟨hphase, hdue⟩ hle
  · rcases huntil with ⟨hphase', hdue'⟩ | ⟨k, hk, ⟨hphase', hdue'⟩, hwork'⟩
    · exact ⟨m, hle, hphase', hdue', hwork⟩
    · exact ⟨k, hk, hphase', hdue', hwork'⟩
  · rintro k _ ⟨hphase', hdue'⟩
    have hopened := (path_serves p k).mp (by rw [hphase']; rfl)
    have hturn := path_turns p k
    generalize p.input k = e at hturn ⊢
    generalize p.output k = o at hturn
    generalize p.state (k + 1) = s' at hturn ⊢
    cases hturn with
    | shakes phase_eq => exact absurd (hphase'.symm.trans phase_eq) (by simp)
    | refuses phase_eq => exact absurd (hphase'.symm.trans phase_eq) (by simp)
    | takesOver opener_eq phase_eq => exact absurd (hphase'.symm.trans phase_eq) (by simp)
    | retries opener_eq phase_ne => exact Or.inr ⟨hphase', hdue'⟩
    | givesUp opener_eq => exact absurd (hopened.symm.trans opener_eq) (by simp)
    | accepts m opener_eq senders_eq inLoop_eq => exact Or.inr ⟨hphase', Or.inl (by simp)⟩
    | rejects m opener_eq senders_eq inLoop_eq => exact Or.inr ⟨hphase', hdue'⟩
    | hangsUp opener_eq senders_eq => exact Or.inr ⟨hphase', Or.inr rfl⟩
    | wakes phase_eq => exact absurd (hphase'.symm.trans phase_eq) (by simp)
    | idles => exact Or.inr ⟨hphase', hdue'⟩
    | _ => exact Or.inl ⟨_, rfl⟩

/-- What is due stays due while the thread waits or reads, and it does so until it is woken,
stops reading, or ends. -/
theorem due_step (hserves : s.phase.serves = true ↔ s.opener = .opened) (hdue : s.Due)
    (hphase : s.phase = .reading ∨ s.phase = .parked) (hstep : Turns C s e o s') :
    s'.Over ∨ s'.Due ∧ (s'.phase = s.phase ∨ s.phase = .reading ∧ s'.phase = .parked ∨
      e = .wake ∧ s'.phase = .writing) := by
  have hopened : s.opener = .opened := hserves.mp (by rcases hphase with h | h <;> rw [h] <;> rfl)
  have hnot : s.phase ≠ .connecting ∧ s.phase ≠ .offering ∧ s.phase ≠ .writing := by
    rcases hphase with h | h <;> simp [h]
  cases hstep with
  | shakes phase_eq => exact absurd phase_eq hnot.1
  | refuses phase_eq => exact absurd phase_eq hnot.1
  | takesOver opener_eq phase_eq => exact absurd phase_eq hnot.2.1
  | retries opener_eq phase_ne => exact Or.inr ⟨hdue, Or.inl rfl⟩
  | givesUp opener_eq => exact absurd (hopened.symm.trans opener_eq) (by simp)
  | unwraps read phase_eq opener_eq => exact absurd phase_eq hnot.2.1
  | accepts m opener_eq senders_eq inLoop_eq => exact Or.inr ⟨Or.inl (by simp), Or.inl rfl⟩
  | rejects m opener_eq senders_eq inLoop_eq => exact Or.inr ⟨hdue, Or.inl rfl⟩
  | hangsUp opener_eq senders_eq => exact Or.inr ⟨Or.inr rfl, Or.inl rfl⟩
  | takes read m rest phase_eq mailbox_eq goes => exact absurd phase_eq hnot.2.2
  | drains read phase_eq mailbox_eq senders_eq => exact absurd phase_eq hnot.2.2
  | ends read phase_eq mailbox_eq senders_eq => exact absurd phase_eq hnot.2.2
  | stops read reply rest phase_eq mailbox_eq => exact absurd phase_eq hnot.2.2
  | dispatches msg decoded phase_eq decodes => exact Or.inr ⟨hdue, Or.inl rfl⟩
  | blocks phase_eq => exact Or.inr ⟨hdue, Or.inr (Or.inl ⟨phase_eq, rfl⟩)⟩
  | fails phase_eq => exact Or.inl ⟨_, rfl⟩
  | breaks msg phase_eq panics => exact Or.inl ⟨_, rfl⟩
  | wakes phase_eq => exact Or.inr ⟨hdue, Or.inr (Or.inr ⟨rfl, rfl⟩)⟩
  | idles => exact Or.inr ⟨hdue, Or.inl rfl⟩

/-- A parked thread with something to do is woken. -/
theorem works_of_parked (fair : Fair p) (hphase : (p.state n).phase = .parked)
    (hdue : (p.state n).Due) : ∃ k, n ≤ k ∧ ((p.state k).Over ∨
      (p.state k).phase = .writing ∧ (p.state k).Due ∧ ∃ read, p.input k = .work read) := by
  obtain ⟨m, hle, hwake⟩ := fair.wakes n hphase (path_notified p n (Or.inr hphase) hdue)
  have hstep : ∀ k, (p.state k).phase = .parked → (p.state k).Due →
      (p.state (k + 1)).Over ∨ (p.state (k + 1)).Due ∧
        ((p.state (k + 1)).phase = .parked ∨
          p.input k = .wake ∧ (p.state (k + 1)).phase = .writing) := by
    intro k hparked hdue'
    rcases due_step (path_serves p k) hdue' (Or.inr hparked) (path_turns p k) with
      hover | ⟨hdue'', hsame | ⟨hreading, _⟩ | hwoken⟩
    · exact Or.inl hover
    · exact Or.inr ⟨hdue'', Or.inl (hsame.trans hparked)⟩
    · exact absurd (hparked.symm.trans hreading) (by simp)
    · exact Or.inr ⟨hdue'', Or.inr hwoken⟩
  have huntil := p.until_or (P := fun s => s.phase = .parked ∧ s.Due)
    (Q := fun k => (p.state (k + 1)).Over ∨
      (p.state (k + 1)).phase = .writing ∧ (p.state (k + 1)).Due) ?_ ⟨hphase, hdue⟩ hle
  · have hwriting : ∃ k, n ≤ k ∧ ((p.state (k + 1)).Over ∨
        (p.state (k + 1)).phase = .writing ∧ (p.state (k + 1)).Due) := by
      rcases huntil with ⟨hparked, hdue'⟩ | ⟨k, hk, _, hwoken⟩
      · refine ⟨m, hle, ?_⟩
        have hturn := path_turns p m
        rw [hwake] at hturn
        rcases hstep m hparked hdue' with hover | ⟨hdue'', hsame | ⟨_, hwoken⟩⟩
        · exact Or.inl hover
        · generalize p.output m = o at hturn
          generalize p.state (m + 1) = s' at hturn hsame hdue''
          cases hturn with
          | wakes phase_eq => cases hsame
        · exact Or.inr ⟨hwoken, hdue''⟩
      · exact ⟨k, hk, hwoken⟩
    obtain ⟨k, hk, hover | ⟨hwriting, hdue'⟩⟩ := hwriting
    · exact ⟨k + 1, Nat.le_succ_of_le hk, Or.inl hover⟩
    · obtain ⟨j, hj, hworks⟩ := works_of_writing fair hwriting hdue'
      exact ⟨j, Nat.le_trans (Nat.le_succ_of_le hk) hj, Or.inr hworks⟩
  · rintro k _ ⟨hparked, hdue'⟩
    rcases hstep k hparked hdue' with hover | ⟨hdue'', hsame | ⟨_, hwoken⟩⟩
    · exact Or.inl (Or.inl hover)
    · exact Or.inr ⟨hsame, hdue''⟩
    · exact Or.inl (Or.inr ⟨hwoken, hdue''⟩)

/-- A thread in its loop with something to write comes to it, or ends. -/
theorem works_or_over (fair : Fair p) (hloop : (p.state n).inLoop = true)
    (hdue : (p.state n).Due) : ∃ k, n ≤ k ∧ ((p.state k).Over ∨
      (p.state k).phase = .writing ∧ (p.state k).Due ∧ ∃ read, p.input k = .work read) := by
  unfold inLoop at hloop
  split at hloop
  · rename_i hphase
    obtain ⟨k, hk, hworks⟩ := works_of_writing fair hphase hdue
    exact ⟨k, hk, Or.inr hworks⟩
  · rename_i hphase
    obtain ⟨m, hle, hblocked⟩ := fair.blocks n hphase
    have huntil := p.until_or (P := fun s => s.phase = .reading ∧ s.Due)
      (Q := fun k => (p.state (k + 1)).Over ∨
        (p.state (k + 1)).phase = .parked ∧ (p.state (k + 1)).Due) ?_ ⟨hphase, hdue⟩ hle
    · rcases huntil with ⟨hreading, _⟩ | ⟨k, hk, _, hover | ⟨hparked, hdue'⟩⟩
      · exact absurd hreading hblocked
      · exact ⟨k + 1, Nat.le_succ_of_le hk, Or.inl hover⟩
      · obtain ⟨j, hj, hworks⟩ := works_of_parked fair hparked hdue'
        exact ⟨j, Nat.le_trans (Nat.le_succ_of_le hk) hj, hworks⟩
    · rintro k _ ⟨hreading, hdue'⟩
      rcases due_step (path_serves p k) hdue' (Or.inl hreading) (path_turns p k) with
        hover | ⟨hdue'', hsame | ⟨_, hparked⟩ | ⟨hwake, hwriting⟩⟩
      · exact Or.inl (Or.inl hover)
      · exact Or.inr ⟨hsame.trans hreading, hdue''⟩
      · exact Or.inl (Or.inr ⟨hparked, hdue''⟩)
      · have hturn := path_turns p k
        rw [hwake] at hturn
        generalize p.output k = o at hturn
        generalize p.state (k + 1) = s' at hturn
        cases hturn with
        | wakes phase_eq => exact absurd (hreading.symm.trans phase_eq) (by simp)
  · rename_i hphase
    exact works_of_parked fair hphase hdue
  · cases hloop

/-- What a turn of a thread that writes makes of its letters. -/
theorem write_step {taken left : List Letter} {tr : List (LoopEvent × LoopEffect)}
    (h : Ledger tr s taken left) (hphase : s.phase = .writing) {read : Except WsError Message}
    (hstep : Turns C s (.work read) o s') (hdue : s.Due) :
    s'.Over ∨ s'.inLoop = true ∧ s'.senders = s.senders ∧
      ∃ m rest, left = m :: rest ∧ Ledger (tr ++ [(.work read, o)]) s' (taken ++ [m]) rest := by
  cases hstep with
  | unwraps read phase_eq opener_eq => exact absurd (hphase.symm.trans phase_eq) (by simp)
  | drains read phase_eq mailbox_eq senders_eq =>
      rcases hdue with hdue | hdue
      · exact absurd mailbox_eq hdue
      · exact absurd (senders_eq.symm.trans hdue) (by simp)
  | ends read phase_eq mailbox_eq senders_eq => exact Or.inl ⟨_, rfl⟩
  | stops read reply rest phase_eq mailbox_eq => exact Or.inl ⟨_, rfl⟩
  | takes read m rest phase_eq mailbox_eq goes =>
      obtain rfl := mailbox_eq.symm.trans (h.unread (by simp [phase_eq])).1
      exact Or.inr ⟨by simp [inLoop, phase_eq], rfl, m, rest, rfl, h.take phase_eq goes⟩
  | blocks phase_eq => exact absurd (hphase.symm.trans phase_eq) (by simp)
  | dispatches msg decoded phase_eq decodes =>
      exact absurd (hphase.symm.trans phase_eq) (by simp)
  | fails phase_eq => exact absurd (hphase.symm.trans phase_eq) (by simp)
  | breaks msg phase_eq panics => exact absurd (hphase.symm.trans phase_eq) (by simp)

/-- What was taken stays taken. -/
theorem ledger_later {taken left : List Letter} (h : Ledger (p.trace n) (p.state n) taken left)
    {m : Nat} (hle : n ≤ m) :
    ∃ taken' left', Ledger (p.trace m) (p.state m) taken' left' ∧ taken <+: taken' := by
  induction m, hle using Nat.le_induction with
  | base => exact ⟨taken, left, h, List.prefix_rfl⟩
  | succ m _ ih =>
      obtain ⟨taken', left', h', hpre⟩ := ih
      obtain ⟨hserves, hidle, _⟩ := ledger_of_run (p.run m)
      obtain ⟨taken'', left'', h'', hpre'⟩ := h'.step hserves hidle (path_turns p m)
      rw [← p.trace_succ] at h''
      exact ⟨taken'', left'', h'', hpre.trans hpre'⟩

theorem inLoop_of_serves (hserves : s.phase.serves = true) (hover : ¬ s.Over) :
    s.inLoop = true := by
  cases hphase : s.phase with
  | connecting => simp [hphase, Phase.serves] at hserves
  | offering => simp [hphase, Phase.serves] at hserves
  | writing => simp [inLoop, hphase]
  | reading => simp [inLoop, hphase]
  | parked => simp [inLoop, hphase]
  | ended exit => exact absurd ⟨exit, hphase⟩ hover

/-- The letters accepted by `n` are taken one by one. -/
theorem taken_or_over (fair : Fair p) {d : Nat} :
    ∀ {m : Nat} {taken left : List Letter}, n ≤ m →
      Ledger (p.trace m) (p.state m) taken left →
      (accepted (p.trace n)).length ≤ taken.length + d →
      ∃ k, n ≤ k ∧ ((p.state k).Over ∨ ∃ taken' left',
        Ledger (p.trace k) (p.state k) taken' left' ∧ accepted (p.trace n) <+: taken') := by
  have haccepted : ∀ {m : Nat}, n ≤ m → accepted (p.trace n) <+: accepted (p.trace m) := by
    intro m hle
    induction m, hle using Nat.le_induction with
    | base => exact List.prefix_rfl
    | succ m _ ih =>
        rw [p.trace_succ, accepted_snoc]
        exact ih.trans (List.prefix_append _ _)
  induction d with
  | zero =>
      intro m taken left hle h hlen
      have htaken : taken <+: accepted (p.trace m) := by
        rw [h.accepted]
        exact List.prefix_append _ _
      exact ⟨m, hle, Or.inr ⟨taken, left, h,
        List.prefix_of_prefix_length_le (haccepted hle) htaken hlen⟩⟩
  | succ d ih =>
      intro m taken left hle h hlen
      by_cases hover : (p.state m).Over
      · exact ⟨m, hle, Or.inl hover⟩
      by_cases hshort : (accepted (p.trace n)).length ≤ taken.length + d
      · exact ih hle h hshort
      -- there is a letter left, so the thread comes to write
      have hleft : left ≠ [] := by
        rintro rfl
        have hmono := (haccepted hle).length_le
        rw [h.accepted, List.append_nil] at hmono
        omega
      have hserves : (p.state m).phase.serves = true := by
        obtain ⟨hserves, hidle, _⟩ := ledger_of_run (p.run m)
        refine hserves.mpr ?_
        by_contra hopener
        have hnone := hidle hopener
        rw [h.accepted, List.append_eq_nil_iff] at hnone
        exact hleft hnone.2
      have hdue : (p.state m).Due := by
        have hmailbox := (h.unread fun exit hexit => hover ⟨exit, hexit⟩).1
        exact Or.inl (hmailbox ▸ hleft)
      obtain ⟨k, hk, hover' | ⟨hwriting, hdue', read, hwork⟩⟩ :=
        works_or_over fair (inLoop_of_serves hserves hover) hdue
      · exact ⟨k, Nat.le_trans hle hk, Or.inl hover'⟩
      · obtain ⟨taken', left', h', hpre⟩ := ledger_later h hk
        have hturn := path_turns p k
        rw [hwork] at hturn
        have htrace := p.trace_succ k
        rw [hwork] at htrace
        have hle' : n ≤ k + 1 := Nat.le_succ_of_le (Nat.le_trans hle hk)
        rcases write_step h' hwriting hturn hdue' with hover' | ⟨_, _, a, rest, _, h''⟩
        · exact ⟨k + 1, hle', Or.inl hover'⟩
        · rw [← htrace] at h''
          refine ih hle' h'' ?_
          have hmono := hpre.length_le
          rw [List.length_append, List.length_singleton]
          omega

/-- Nobody posts any more, and at most `d` letters are left. -/
def Closing (d : Nat) (s : EventLoop) : Prop :=
  s.opener = .opened ∧ s.senders = false ∧ s.mailbox.length ≤ d

theorem Closing.step {d : Nat} (h : s.Closing d) (hstep : Turns C s e o s') :
    s'.Closing d := by
  obtain ⟨hopened, hsenders, hlen⟩ := h
  cases hstep with
  | shakes phase_eq => exact ⟨hopened, hsenders, hlen⟩
  | refuses phase_eq => exact ⟨hopened, hsenders, Nat.zero_le _⟩
  | takesOver opener_eq phase_eq => exact ⟨rfl, hsenders, hlen⟩
  | retries opener_eq phase_ne => exact ⟨hopened, hsenders, hlen⟩
  | givesUp opener_eq => exact absurd (hopened.symm.trans opener_eq) (by simp)
  | unwraps read phase_eq opener_eq => exact ⟨hopened, hsenders, Nat.zero_le _⟩
  | accepts m opener_eq senders_eq inLoop_eq =>
      exact absurd (hsenders.symm.trans senders_eq) (by simp)
  | rejects m opener_eq senders_eq inLoop_eq =>
      exact absurd (hsenders.symm.trans senders_eq) (by simp)
  | hangsUp opener_eq senders_eq => exact absurd (hsenders.symm.trans senders_eq) (by simp)
  | takes read m rest phase_eq mailbox_eq goes =>
      rw [mailbox_eq] at hlen
      exact ⟨hopened, hsenders, Nat.le_of_succ_le hlen⟩
  | dispatches msg decoded phase_eq decodes => exact ⟨hopened, hsenders, hlen⟩
  | drains read phase_eq mailbox_eq senders_eq => exact ⟨hopened, hsenders, hlen⟩
  | ends read phase_eq mailbox_eq senders_eq => exact ⟨hopened, hsenders, Nat.zero_le _⟩
  | stops read reply rest phase_eq mailbox_eq => exact ⟨hopened, hsenders, Nat.zero_le _⟩
  | blocks phase_eq => exact ⟨hopened, hsenders, hlen⟩
  | fails phase_eq => exact ⟨hopened, hsenders, Nat.zero_le _⟩
  | breaks msg phase_eq panics => exact ⟨hopened, hsenders, Nat.zero_le _⟩
  | wakes phase_eq => exact ⟨hopened, hsenders, hlen⟩
  | idles => exact ⟨hopened, hsenders, hlen⟩

theorem closing_later {d m : Nat} (h : (p.state n).Closing d) (hle : n ≤ m) :
    (p.state m).Closing d := by
  induction m, hle using Nat.le_induction with
  | base => exact h
  | succ m _ ih => exact ih.step (path_turns p m)

/-- A thread whose senders are gone works off its mailbox and ends. -/
theorem over_of_closing (fair : Fair p) {d n : Nat} (h : (p.state n).Closing d) :
    ∃ m, n ≤ m ∧ (p.state m).Over := by
  induction d using Nat.strong_induction_on generalizing n with
  | _ d ih =>
      by_cases hover : (p.state n).Over
      · exact ⟨n, le_rfl, hover⟩
      have hserves := (path_serves p n).mpr h.1
      obtain ⟨k, hk, hover' | ⟨hwriting, hdue, read, hwork⟩⟩ :=
        works_or_over fair (inLoop_of_serves hserves hover) (Or.inr h.2.1)
      · exact ⟨k, hk, hover'⟩
      · obtain ⟨_, _, taken, left, hledger⟩ := ledger_of_run (p.run k)
        have hturn := path_turns p k
        rw [hwork] at hturn
        rcases write_step hledger hwriting hturn hdue with hover' | ⟨_, _, a, rest, rfl, h'⟩
        · exact ⟨k + 1, Nat.le_succ_of_le hk, hover'⟩
        · obtain ⟨_, _, hlen⟩ := closing_later h hk
          rw [(hledger.unread (by simp [hwriting])).1] at hlen
          obtain ⟨hopened, hsenders, _⟩ := closing_later h (Nat.le_succ_of_le hk)
          by_cases hover' : (p.state (k + 1)).Over
          · exact ⟨k + 1, Nat.le_succ_of_le hk, hover'⟩
          have hrest : (p.state (k + 1)).Closing rest.length := by
            refine ⟨hopened, hsenders, ?_⟩
            rw [(h'.unread fun exit hexit => hover' ⟨exit, hexit⟩).1]
          obtain ⟨m, hm, hend⟩ := ih rest.length hlen hrest
          exact ⟨m, Nat.le_trans (Nat.le_succ_of_le hk) hm, hend⟩

/-- **No letter is forgotten.**  A thread that gets its turns, and whose transport blocks again and
again, takes every letter that was accepted, in the order of posting, unless it ends before; and
it ends once all its senders are gone. -/
theorem letters_taken (fair : Fair p) (n : Nat) :
    (∃ m, n ≤ m ∧ ((p.state m).Over ∨ ∃ taken left,
      Ledger (p.trace m) (p.state m) taken left ∧ accepted (p.trace n) <+: taken)) ∧
    ((p.state n).opener = .opened → (p.state n).senders = false →
      ∃ m, n ≤ m ∧ (p.state m).Over) := by
  constructor
  · obtain ⟨_, _, taken, left, h⟩ := ledger_of_run (p.run n)
    exact taken_or_over fair le_rfl h (Nat.le_add_left _ _)
  · intro hopened hsenders
    exact over_of_closing fair ⟨hopened, hsenders, le_rfl⟩

end progress

/-- Two texts come in while the thread is parked, and are written; it reads a notification and
parks again.  Then a question comes in, the client goes away, and the thread answers and ends. -/
def farewell : Nat → EventLoop × LoopEvent × LoopEffect
  | 0 => (start, .handshake true, .quiet)
  | 1 => (⟨.waiting, .offering, [], true, false⟩, .tryRecv, .quiet)
  | 2 => (⟨.opened, .writing, [], true, false⟩, .work (.error .wouldBlock), .quiet)
  | 3 => (⟨.opened, .reading, [], true, false⟩, .work (.error .wouldBlock), .read [])
  | 4 => (⟨.opened, .parked, [], true, false⟩,
      .post (.text "0x1", none), .accepted (.text "0x1", none))
  | 5 => (⟨.opened, .parked, [(.text "0x1", none)], true, true⟩,
      .post (.text "0x2", none), .accepted (.text "0x2", none))
  | 6 => (⟨.opened, .parked, [(.text "0x1", none), (.text "0x2", none)], true, true⟩,
      .wake, .quiet)
  | 7 => (⟨.opened, .writing, [(.text "0x1", none), (.text "0x2", none)], true, false⟩,
      .work (.error .wouldBlock), .wrote (.text "0x1"))
  | 8 => (⟨.opened, .writing, [(.text "0x2", none)], true, false⟩,
      .work (.error .wouldBlock), .wrote (.text "0x2"))
  | 9 => (⟨.opened, .writing, [], true, false⟩, .work (.error .wouldBlock), .quiet)
  | 10 => (⟨.opened, .reading, [], true, false⟩,
      .work (.ok (.text "")), .read [.subscription 1 (.string "0x4dfbff")])
  | 11 => (⟨.opened, .reading, [], true, false⟩, .work (.error .wouldBlock), .read [])
  | 12 => (⟨.opened, .parked, [], true, false⟩,
      .post (.connectedStatus, some 0), .accepted (.connectedStatus, some 0))
  | 13 => (⟨.opened, .parked, [(.connectedStatus, some 0)], true, true⟩, .hangUp, .quiet)
  | 14 => (⟨.opened, .parked, [(.connectedStatus, some 0)], false, true⟩, .wake, .quiet)
  | 15 => (⟨.opened, .writing, [(.connectedStatus, some 0)], false, false⟩,
      .work (.error .wouldBlock), .replied 0)
  | 16 => (⟨.opened, .writing, [], false, false⟩,
      .work (.error .wouldBlock), .ended .hungUp [])
  | _ => (⟨.opened, .ended .hungUp, [], false, false⟩, .idle, .quiet)

def farewellPath : (machine Client.updateCodec).Path start where
  state n := (farewell n).1
  input n := (farewell n).2.1
  output n := (farewell n).2.2
  start := rfl
  step n := by
    match n with
    | 0 | 1 | 2 | 3 | 4 | 5 | 6 | 7 | 8 | 9 | 10 | 11 | 12 | 13 | 14 | 15 | 16 | n + 17 => rfl

theorem farewellPath_fair : Fair farewellPath where
  works n hphase := by
    match n with
    | 2 | 7 | 8 | 9 | 15 | 16 => exact ⟨16, by decide, _, rfl⟩
    | 0 | 1 | 3 | 4 | 5 | 6 | 10 | 11 | 12 | 13 | 14 | n + 17 => cases hphase
  blocks n hphase := by
    match n with
    | 3 | 10 | 11 => exact ⟨12, by decide, by simp [farewellPath, farewell]⟩
    | 0 | 1 | 2 | 4 | 5 | 6 | 7 | 8 | 9 | 12 | 13 | 14 | 15 | 16 | n + 17 => cases hphase
  wakes n hphase hnotified := by
    match n with
    | 5 | 6 | 13 | 14 => exact ⟨14, by decide, rfl⟩
    | 4 | 12 => cases hnotified
    | 0 | 1 | 2 | 3 | 7 | 8 | 9 | 10 | 11 | 15 | 16 | n + 17 => cases hphase

/-- The letters posted before the client went away are taken, and the thread ends. -/
theorem farewell_taken :
    accepted (farewellPath.trace 13) =
      [(.text "0x1", none), (.text "0x2", none), (.connectedStatus, some 0)] ∧
    (∃ m, 13 ≤ m ∧ ((farewellPath.state m).Over ∨ ∃ taken left,
      Ledger (farewellPath.trace m) (farewellPath.state m) taken left ∧
        accepted (farewellPath.trace 13) <+: taken)) ∧
    ∃ m, 14 ≤ m ∧ (farewellPath.state m).Over :=
  ⟨rfl, (letters_taken farewellPath_fair 13).1, (letters_taken farewellPath_fair 14).2 rfl rfl⟩

end EventLoop

end Ethereyum
