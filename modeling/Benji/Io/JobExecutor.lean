import Benji.Lib.Steps
import Mathlib.Data.Int.Notation
import Mathlib.Data.List.Basic

/-! `JobExecutor`: jobs run in the threads of a pool, their outcomes are collected by the
iterations of the main thread, and a semaphore bounds the one or the other. -/
namespace Benji
open Lib

variable {α : Type}

/-- Where a job and its future are. -/
inductive Stage (α : Type) where
  | queued
  /-- In a thread that waits for the semaphore. -/
  | acquiring
  | running
  /-- The function is left and the future is not set yet. -/
  | returned (result : Except String α)
  | finished (result : Except String α)
  | collected (result : Except String α)

namespace Stage

def isQueued : Stage α → Bool
  | queued => true
  | _ => false

/-- In a thread of the pool. -/
def isActive : Stage α → Bool
  | acquiring => true
  | running => true
  | returned _ => true
  | _ => false

def isQueuedOrRunning : Stage α → Bool
  | queued => true
  | running => true
  | _ => false

def isRunningOrFinished : Stage α → Bool
  | running => true
  | returned _ => true
  | finished _ => true
  | _ => false

def isCollected : Stage α → Bool
  | collected _ => true
  | _ => false

end Stage

/-- A live iteration of `get_completed`. -/
structure Iteration where
  timeout : Option ℤ
  /-- What `as_completed` still has to yield. -/
  futures : List ℕ
  /-- How many jobs were submitted before the first `next`. -/
  submitted : ℕ
  /-- The main thread is inside a `next`. -/
  waiting : Bool

/-- The futures go by the number of jobs submitted before them. -/
structure JobExecutor (α : Type) where
  semaphore : ℕ
  jobs : List (Stage α) := []
  futures : List ℕ := []
  iteration : Option Iteration := none
  acquired : ℕ := 0
  released : ℕ := 0
  yielded : List (ℕ × Except String α) := []
  /-- Releases above the bound and removals of what is not in the list, both a `ValueError`. -/
  faults : ℕ := 0

namespace JobExecutor

structure Config where
  workers : ℕ
  blockingSubmit : Bool

/-- The bound of the semaphore. -/
def Config.limit (c : Config) : ℕ := 2 * c.workers + 1

def init (c : Config) : JobExecutor α where
  semaphore := c.limit

inductive Event (α : Type) where
  | submit
  /-- A thread takes the job that waits longest. -/
  | start (i : ℕ)
  | acquire (i : ℕ)
  | complete (i : ℕ) (result : Except String α)
  | finish (i : ℕ)
  /-- The first `next` of an iteration. -/
  | next (timeout : Option ℤ)
  /-- Another `next`. -/
  | resume
  /-- `as_completed` yields a future. -/
  | yield (i : ℕ)
  | stopIteration
  | timeoutError
  | abandon

def acquire (s : JobExecutor α) : Option (JobExecutor α) :=
  if s.semaphore = 0 then none
  else some { s with semaphore := s.semaphore - 1, acquired := s.acquired + 1 }

def release (c : Config) (s : JobExecutor α) : JobExecutor α :=
  if s.semaphore < c.limit then
    { s with semaphore := s.semaphore + 1, released := s.released + 1 }
  else { s with released := s.released + 1, faults := s.faults + 1 }

/-- `ThreadPoolExecutor.submit` and the append to `_futures`. -/
def enqueue (s : JobExecutor α) : JobExecutor α :=
  { s with jobs := s.jobs ++ [.queued], futures := s.futures ++ [s.jobs.length] }

def submit (c : Config) (s : JobExecutor α) : Option (JobExecutor α) :=
  if c.blockingSubmit then s.acquire.map enqueue else some s.enqueue

def setStage (s : JobExecutor α) (i : ℕ) (stage : Stage α) : JobExecutor α :=
  { s with jobs := s.jobs.set i stage }

/-- The main thread is not inside a `next`. -/
def isFree (s : JobExecutor α) : Bool := !s.iteration.any Iteration.waiting

def start (c : Config) (s : JobExecutor α) (i : ℕ) : Option (JobExecutor α) :=
  match s.jobs[i]? with
  | some .queued =>
    if (s.jobs.take i).all (!·.isQueued) ∧ s.jobs.countP Stage.isActive < c.workers then
      some (s.setStage i (if c.blockingSubmit then .running else .acquiring))
    else none
  | _ => none

def complete (c : Config) (s : JobExecutor α) (i : ℕ) (result : Except String α) :
    Option (JobExecutor α) :=
  match s.jobs[i]? with
  | some .running =>
    let s := s.setStage i (.returned result)
    some (if c.blockingSubmit then s.release c else s)
  | _ => none

/-- The body of the loop of `get_completed`. -/
def collect (c : Config) (s : JobExecutor α) (it : Iteration) (i : ℕ) (result : Except String α) :
    JobExecutor α :=
  if i ∈ s.futures then
    let s := { s with
      futures := s.futures.erase i
      iteration := some { it with futures := it.futures.erase i, waiting := false }
      yielded := s.yielded ++ [(i, result)] }.setStage i (.collected result)
    if c.blockingSubmit then s else s.release c
  else { s with iteration := none, faults := s.faults + 1 }

def step (c : Config) (s : JobExecutor α) : Event α → Option (JobExecutor α)
  | .submit => if s.isFree then s.submit c else none
  | .start i => s.start c i
  | .acquire i =>
    match s.jobs[i]? with
    | some .acquiring => s.acquire.map fun s => s.setStage i .running
    | _ => none
  | .complete i result => s.complete c i result
  | .finish i =>
    match s.jobs[i]? with
    | some (.returned result) => some (s.setStage i (.finished result))
    | _ => none
  | .next timeout =>
    match s.iteration with
    | none => some { s with iteration := some ⟨timeout, s.futures, s.jobs.length, true⟩ }
    | some _ => none
  | .resume =>
    match s.iteration with
    | some it =>
      if it.waiting then none else some { s with iteration := some { it with waiting := true } }
    | none => none
  | .yield i =>
    match s.iteration, s.jobs[i]? with
    | some it, some (.finished result) =>
      if it.waiting ∧ i ∈ it.futures then some (s.collect c it i result) else none
    | _, _ => none
  | .stopIteration =>
    match s.iteration with
    | some it =>
      if it.waiting ∧ it.futures = [] then some { s with iteration := none } else none
    | none => none
  | .timeoutError =>
    match s.iteration with
    | some it =>
      if it.waiting ∧ it.timeout.isSome ∧ it.futures ≠ [] then
        some { s with iteration := none }
      else none
    | none => none
  | .abandon =>
    match s.iteration with
    | some it => if it.waiting then none else some { s with iteration := none }
    | none => none

end JobExecutor

end Benji
