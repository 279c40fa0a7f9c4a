import Mathlib.Logic.Function.Basic
import Mathlib.Tactic.Common
import NetProg.Lib.Runs

/-!
# The thread pool (`threadPool.hpp`)

`n` workers run `routine`, and `pushTask` may be called at any time. What happens while the mutex is
held is one step: all of `pushTask`, and in `routine` what a worker does from when it gets the mutex
until it gives it up, at the end of the block or in `waitCond`. A worker in `waitCond` is blocked
until it is woken, by a signal or for no reason, and then has to get the mutex again; the loop
`while (tp->isEmpty()) tp->waitCond();` then tests the queue once more, so it goes on like a worker
that comes to the block for the first time.

The lists `pushed`, `taken` and `ran` record what has happened.
-/

namespace NetProg.TcpPool

open NetProg.Lib Function

/-- Where a worker is in `routine`. -/
inductive Phase (T : Type*) where
  /-- `run` has not created the thread -/
  | idle
  /-- at the lock guard -/
  | locking
  /-- blocked in `pthread_cond_wait` -/
  | waiting
  /-- woken in `pthread_cond_wait`, without the mutex yet -/
  | woken
  /-- the mutex is released and `task` is about to be run -/
  | holding (task : T)
  /-- in `task(td->name_)` -/
  | working (task : T)

/-- The task that a worker in this phase is about to run. -/
def Phase.pending {T : Type*} : Phase T → List T
  | .holding task => [task]
  | .idle | .locking | .waiting | .woken | .working _ => []

structure ThreadPool (n : ℕ) (T : Type*) where
  phase : Fin n → Phase T
  taskQueue : List T
  /-- the arguments of `pushTask` so far -/
  pushed : List T
  /-- the results of `getTask` so far, with the worker -/
  taken : List (Fin n × T)
  /-- the tasks that were run or are being run, with the worker -/
  ran : List (Fin n × T)

namespace ThreadPool

variable {n : ℕ} {T : Type*} (p : ThreadPool n T)

def init : ThreadPool n T where
  phase _ := .idle
  taskQueue := []
  pushed := []
  taken := []
  ran := []

def goto (w : Fin n) (phase : Phase T) : ThreadPool n T :=
  { p with phase := update p.phase w phase }

def isEmpty : Bool := p.taskQueue.isEmpty

def waitCond (w : Fin n) : ThreadPool n T := p.goto w .waiting

/-- `getTask`; there is no `front` of an empty queue. -/
def getTask (w : Fin n) : Option (T × ThreadPool n T) :=
  match p.taskQueue with
  | [] => none
  | ret :: rest => some (ret, { p with taskQueue := rest, taken := p.taken ++ [(w, ret)] })

/-- The worker gets the mutex, and keeps it until it waits or has a task. -/
def critical (w : Fin n) : Option (ThreadPool n T) :=
  if p.isEmpty then some (p.waitCond w)
  else (p.getTask w).map fun (task, p) => p.goto w (.holding task)

/-- Whom `pthread_cond_signal` wakes: one of the workers that wait, if there is any. -/
def Wakes : Option (Fin n) → Prop
  | none => ∀ w, p.phase w ≠ .waiting
  | some w => p.phase w = .waiting

def signal : Option (Fin n) → ThreadPool n T
  | none => p
  | some w => p.goto w .woken

def pushTask (task : T) (w : Option (Fin n)) : ThreadPool n T :=
  ({ p with taskQueue := p.taskQueue ++ [task], pushed := p.pushed ++ [task] } :
    ThreadPool n T).signal w

/-- What the workers do. -/
inductive Work (p : ThreadPool n T) : ThreadPool n T → Prop
  /-- a spurious wake-up -/
  | wake {w : Fin n} (h : p.phase w = .waiting) : Work p (p.goto w .woken)
  | enter {w : Fin n} {p' : ThreadPool n T} (h : p.phase w = .locking ∨ p.phase w = .woken)
      (hc : p.critical w = some p') : Work p p'
  | run {w : Fin n} {task : T} (h : p.phase w = .holding task) :
      Work p { p.goto w (.working task) with ran := p.ran ++ [(w, task)] }
  | finish {w : Fin n} {task : T} (h : p.phase w = .working task) : Work p (p.goto w .locking)

inductive Step (p : ThreadPool n T) : ThreadPool n T → Prop
  /-- `run` starts a thread -/
  | create {w : Fin n} (h : p.phase w = .idle) : Step p (p.goto w .locking)
  | push (task : T) {w : Option (Fin n)} (h : p.Wakes w) : Step p (p.pushTask task w)
  | work {p' : ThreadPool n T} (h : Work p p') : Step p p'

/-- The states of the runs of the pool. -/
def Reach (p : ThreadPool n T) : Prop := Reachable (fun p => p = init) Step p

end ThreadPool

end NetProg.TcpPool
