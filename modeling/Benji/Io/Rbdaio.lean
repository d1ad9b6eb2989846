import Benji.Database.Tables
import Benji.Lib.Steps
import Mathlib.Data.Int.Notation
import Mathlib.Logic.Function.Basic

/-! Asynchronous reads and writes of an RBD image. Both halves of the IO object work alike; a
`Lane` is one of them, with its queue, the requests that librbd works on, its completion queue
and the place where the main thread stands in it. -/
namespace Benji.Rbdaio
open Lib

variable {κ α ρ δ ω : Type}

/-- What librbd tells about a request: what `wait_for_complete_and_cb` raises, the return value
and what the callback gets besides. -/
structure Answer (δ : Type) where
  raised : Option String
  returnValue : ℤ
  data : δ

/-- A tuple in a completion queue. The completion object is the one of the request that was
issued after `number` others. -/
structure Completion (κ δ : Type) where
  number : ℕ
  block : Block κ
  answer : Answer δ

/-- A request that librbd works on. Its callback is a closure of a call of `_submit_aio_reads`
or `_submit_aio_writes`, which is known by its frame. -/
structure Request (ρ : Type) where
  number : ℕ
  frame : ℕ
  arguments : ρ

/-- What an iteration makes of a completion. -/
inductive Outcome (ω : Type) where
  | result (w : ω)
  | exception (e : String)
  | ioError (message : String)

/-- Where `read`, `write` or an iteration goes on after submitting. -/
inductive Caller where
  | submit
  | iteration (timeout : Option ℤ)

inductive Pc (α : Type) where
  | idle
  | submitting (frame : ℕ) (caller : Caller)
  | issuing (frame : ℕ) (item : α) (caller : Caller)
  | issued (frame : ℕ) (caller : Caller)
  | collecting (timeout : Option ℤ)

def Caller.pc : Caller → Pc α
  | .submit => .idle
  | .iteration timeout => .collecting timeout

/-- What tells reads from writes, and how librbd answers each request. -/
structure Driver (κ α ρ δ ω : Type) where
  simultaneous : ℕ
  block : α → Block κ
  arguments : α → ρ
  answer : ℕ → ρ → Answer δ
  outcome : Completion κ δ → Outcome ω

structure Lane (κ α ρ δ ω : Type) where
  /-- The oldest entry first: `appendleft` puts at the end and `pop` takes the head. -/
  queue : List α := []
  outstanding : ℕ := 0
  /-- The semaphore, where there is one. -/
  slots : Option ℕ
  completed : List (Completion κ δ) := []
  unfinishedTasks : ℕ := 0
  frames : ℕ := 0
  /-- The variable `block` of each frame. -/
  cells : ℕ → Option (Block κ) := fun _ => none
  requests : List (Request ρ) := []
  /-- The callbacks between their `put` and their `release`. -/
  releasing : ℕ := 0
  /-- The timeouts of the iterations that are suspended at a `yield`. -/
  suspended : List (Option ℤ) := []
  pc : Pc α := .idle
  submitted : List α := []
  issued : List α := []
  reported : List (Completion κ δ × Outcome ω) := []
  /-- Assertions, unbound variables and counters that went below zero or over their bound. -/
  faults : ℕ := 0

inductive Event (α : Type) where
  | submit (item : α)
  /-- The first `next` of an iteration. -/
  | start (timeout : Option ℤ)
  /-- Another `next` of an iteration. -/
  | resume (timeout : Option ℤ)
  /-- The main thread goes on inside a call. -/
  | advance
  | callback (number : ℕ)
  | release

namespace Lane

/-- `_reads_finished` and `_writes_finished`. -/
def finished (l : Lane κ α ρ δ ω) : Prop := l.queue = [] ∧ l.outstanding = 0

instance (l : Lane κ α ρ δ ω) : Decidable l.finished :=
  decidable_of_iff (l.queue.isEmpty = true ∧ l.outstanding = 0) (by
    rw [List.isEmpty_iff, finished])

/-- A call of `_submit_aio_reads` or `_submit_aio_writes`. -/
def submitAio (l : Lane κ α ρ δ ω) (caller : Caller) : Lane κ α ρ δ ω :=
  { l with frames := l.frames + 1, pc := .submitting l.frames caller }

/-- `read` and `write`. -/
def submit (l : Lane κ α ρ δ ω) (item : α) : Lane κ α ρ δ ω :=
  { l with queue := l.queue ++ [item], submitted := l.submitted ++ [item] }.submitAio .submit

/-- The head of the loop in `read_get_completed` and `write_get_completed`. -/
def loop (l : Lane κ α ρ δ ω) (timeout : Option ℤ) : Lane κ α ρ δ ω :=
  if l.finished then l else l.submitAio (.iteration timeout)

/-- An iteration goes on after its `yield`. -/
def taskDone (l : Lane κ α ρ δ ω) (timeout : Option ℤ) : Lane κ α ρ δ ω :=
  { l with
    suspended := l.suspended.eraseP fun t => t = timeout
    unfinishedTasks := l.unfinishedTasks - 1 }

def acquire : Option ℕ → Option (Option ℕ)
  | none => some none
  | some 0 => none
  | some (n + 1) => some (some n)

/-- What follows `get` in an iteration. -/
def report (d : Driver κ α ρ δ ω) (l : Lane κ α ρ δ ω) (timeout : Option ℤ)
    (c : Completion κ δ) : Lane κ α ρ δ ω :=
  if l.outstanding = 0 then { l with pc := .idle, faults := l.faults + 1 }
  else
    let l := { l with
      outstanding := l.outstanding - 1
      reported := l.reported ++ [(c, d.outcome c)]
      pc := .idle }
    match d.outcome c with
    | .ioError _ => l
    | _ => { l with suspended := timeout :: l.suspended }

/-- `get` on the completion queue. -/
def collect (d : Driver κ α ρ δ ω) (l : Lane κ α ρ δ ω) (timeout : Option ℤ) :
    Option (Lane κ α ρ δ ω) :=
  -- A negative timeout is a `ValueError` and an empty queue a `queue.Empty` at some time.
  if timeout.any (· < 0) then some { l with pc := .idle }
  else match l.completed with
    | [] => if timeout.isNone then none else some { l with pc := .idle }
    | c :: completed => some ({ l with completed }.report d timeout c)

def advance (d : Driver κ α ρ δ ω) (l : Lane κ α ρ δ ω) : Option (Lane κ α ρ δ ω) :=
  match l.pc with
  | .idle => none
  | .submitting frame caller =>
    match l.queue with
    | [] => some { l with pc := caller.pc }
    | item :: queue =>
      if l.outstanding < d.simultaneous then
        some { l with
          queue
          cells := Function.update l.cells frame (some (d.block item))
          pc := .issuing frame item caller }
      else some { l with pc := caller.pc }
  | .issuing frame item caller => (acquire l.slots).map fun slots =>
      { l with
        slots
        requests := l.requests ++ [⟨l.issued.length, frame, d.arguments item⟩]
        issued := l.issued ++ [item]
        pc := .issued frame caller }
  | .issued frame caller =>
    some { l with outstanding := l.outstanding + 1, pc := .submitting frame caller }
  | .collecting timeout => l.collect d timeout

/-- `aio_callback`: the block is what the variable holds by now. -/
def callback (d : Driver κ α ρ δ ω) (l : Lane κ α ρ δ ω) (number : ℕ) :
    Option (Lane κ α ρ δ ω) :=
  (l.requests.find? fun r => r.number = number).map fun r =>
    let l := { l with requests := l.requests.eraseP fun r => r.number = number }
    match l.cells r.frame with
    | none => { l with faults := l.faults + 1 }
    | some block => { l with
        completed := l.completed ++ [⟨number, block, d.answer number r.arguments⟩]
        unfinishedTasks := l.unfinishedTasks + 1
        releasing := if l.slots.isSome then l.releasing + 1 else l.releasing }

/-- The end of the callback of a write. -/
def release (d : Driver κ α ρ δ ω) (l : Lane κ α ρ δ ω) : Option (Lane κ α ρ δ ω) :=
  if l.releasing = 0 then none
  else l.slots.map fun n =>
    if n < d.simultaneous then { l with slots := some (n + 1), releasing := l.releasing - 1 }
    else { l with releasing := l.releasing - 1, faults := l.faults + 1 }

def isIdle (l : Lane κ α ρ δ ω) : Bool := l.pc matches .idle

def step (d : Driver κ α ρ δ ω) (l : Lane κ α ρ δ ω) : Event α → Option (Lane κ α ρ δ ω)
  | .submit item => if l.isIdle then some (l.submit item) else none
  | .start timeout => if l.isIdle then some (l.loop timeout) else none
  | .resume timeout =>
    if l.isIdle ∧ timeout ∈ l.suspended then
      some (if l.unfinishedTasks = 0 then
        { l with
          suspended := l.suspended.eraseP fun t => t = timeout
          faults := l.faults + 1 }
      else (l.taskDone timeout).loop timeout)
    else none
  | .advance => l.advance d
  | .callback number => l.callback d number
  | .release => l.release d

end Lane

structure ReadArguments where
  offset : ℕ
  length : ℕ
  deriving DecidableEq

structure WriteArguments where
  data : Bytes
  offset : ℕ
  deriving DecidableEq

structure Settings where
  blockSize : ℕ
  simultaneousReads : ℕ
  simultaneousWrites : ℕ
  readAnswer : ℕ → ReadArguments → Answer (Option Bytes)
  writeAnswer : ℕ → WriteArguments → Answer Unit

/-- `read_get_completed` after the assertion. -/
def readOutcome (c : Completion κ (Option Bytes)) : Outcome (Block κ × Bytes) :=
  match c.answer.raised with
  | some e => .exception e
  | none =>
    if c.answer.returnValue < 0 then .ioError s!"Read of block {c.block.idx} failed."
    else if c.answer.returnValue ≠ c.block.size then
      .ioError (s!"Short read of block {c.block.idx}. Wanted {c.block.size} bytes but got " ++
        s!"{c.answer.returnValue}.")
    else match c.answer.data with
      | none => .ioError s!"Read of block {c.block.idx} failed."
      | some [] => .ioError s!"Read of block {c.block.idx} failed."
      | some data => .result (c.block, data)

/-- `write_get_completed` after the assertion. -/
def writeOutcome (c : Completion κ Unit) : Outcome (Block κ) :=
  match c.answer.raised with
  | some e => .exception e
  | none =>
    if c.answer.returnValue ≠ 0 then .ioError s!"Write of block {c.block.idx} failed."
    else .result c.block

abbrev ReadDriver (κ : Type) :=
  Driver κ (Block κ) ReadArguments (Option Bytes) (Block κ × Bytes)

abbrev WriteDriver (κ : Type) := Driver κ (Block κ × Bytes) WriteArguments Unit (Block κ)

def Settings.reads (c : Settings) : ReadDriver κ where
  simultaneous := c.simultaneousReads
  block := id
  arguments block := ⟨block.idx * c.blockSize, block.size⟩
  answer := c.readAnswer
  outcome := readOutcome

def Settings.writes (c : Settings) : WriteDriver κ where
  simultaneous := c.simultaneousWrites
  block := Prod.fst
  arguments item := ⟨item.2, item.1.idx * c.blockSize⟩
  answer := c.writeAnswer
  outcome := writeOutcome

/-- The IO object. -/
structure Io (κ : Type) where
  reads : Lane κ (Block κ) ReadArguments (Option Bytes) (Block κ × Bytes)
  writes : Lane κ (Block κ × Bytes) WriteArguments Unit (Block κ)

namespace Io

def init (c : Settings) : Io κ := ⟨{ slots := none }, { slots := some c.simultaneousWrites }⟩

inductive Event (κ : Type) where
  | read (e : Rbdaio.Event (Block κ))
  | write (e : Rbdaio.Event (Block κ × Bytes))

end Io

/-- The steps that are not the main thread's. -/
def Event.isCallback : Event α → Bool
  | .callback _ => true
  | .release => true
  | _ => false

/-- The main thread is in one lane at a time. -/
def Io.step (c : Settings) (io : Io κ) : Io.Event κ → Option (Io κ)
  | .read e =>
    if e.isCallback ∨ io.writes.isIdle then
      (io.reads.step c.reads e).map fun reads => { io with reads }
    else none
  | .write e =>
    if e.isCallback ∨ io.reads.isIdle then
      (io.writes.step c.writes e).map fun writes => { io with writes }
    else none

end Benji.Rbdaio
