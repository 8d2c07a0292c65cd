import Afina.Lib.PartialRun

namespace Afina

inductive ExecutorState
  | kRun
  | kStopping
  | kStopped
deriving DecidableEq, Repr

/-- Where a pool thread is in `perform`: before the mutex at the top of the loop,
in `wait_for` with the mutex released, in its task, or gone. -/
inductive WorkerPhase (τ : Type)
  | top
  | waiting
  | running (task : τ)
  | returned
deriving DecidableEq, Repr

/-- Where a call of `Stop` is: at an index of the loop over `threads`, in the
`join` of the thread it found there, or over. -/
inductive StopPhase
  | checking (i : Nat)
  | joining (i worker : Nat)
  | assigning
  | done
deriving DecidableEq, Repr

/-- `Executor`. Threads are numbered in the order of their creation: `workers`
has the phase of each, and `threads` the numbers that are in the vector.
`joined` are those that a `Stop` has joined, which are not joinable again. -/
structure Executor (τ : Type) where
  lowWatermark : Nat
  highWatermark : Nat
  maxQueueSize : Nat
  numWorking : UInt64
  threads : List Nat
  tasks : List τ
  state : ExecutorState
  workers : List (WorkerPhase τ)
  stops : List StopPhase
  joined : List Nat
deriving DecidableEq, Repr

/-- The atomic steps. A sleeping worker is woken by a notification, or without
one, or its idle time is over. -/
inductive Act (τ : Type)
  | execute (task : τ)
  | lock (worker : Nat)
  | wake (worker : Nat) (timedOut : Bool)
  | finish (worker : Nat)
  | stop (await : Bool)
  | goOn (call : Nat)
deriving DecidableEq, Repr

inductive Outcome (τ : Type)
  | executed (ok : Bool)
  | dequeued (task : τ)
  | ran (task : τ)
  | quiet
deriving DecidableEq, Repr

namespace Executor

variable {τ : Type}

/-- The constructor: the low watermark of threads, all before their first lock. -/
def constructed (low high maxQueue : Nat) : Executor τ :=
  ⟨low, high, maxQueue, 0, List.range low, [], .kRun, List.replicate low .top, [], []⟩

def setPhase (e : Executor τ) (w : Nat) (phase : WorkerPhase τ) : Executor τ :=
  { e with workers := e.workers.set w phase }

/-- `threads.emplace_back(perform, this)`. -/
def spawn (e : Executor τ) : Executor τ :=
  { e with threads := e.threads ++ [e.workers.length], workers := e.workers ++ [.top] }

/-- All threads are counted as busy and there may be one more. -/
def Crowded (e : Executor τ) : Prop :=
  e.numWorking.toNat = e.threads.length ∧ e.threads.length < e.highWatermark

instance (e : Executor τ) : Decidable e.Crowded :=
  inferInstanceAs (Decidable (_ ∧ _))

/-- `Execute`. -/
def execute (e : Executor τ) (task : τ) : Executor τ × Bool :=
  if e.state ≠ .kRun then (e, false)
  else if e.tasks.length = e.maxQueueSize then (e, false)
  else
    let e := if e.Crowded then e.spawn else e
    ({ e with tasks := e.tasks ++ [task] }, true)

/-- The predicate given to `wait_for`. -/
def Ready (e : Executor τ) : Prop := e.state = .kStopping ∨ e.tasks.isEmpty

instance (e : Executor τ) : Decidable e.Ready :=
  inferInstanceAs (Decidable (_ ∨ _))

def Leaves (e : Executor τ) : Prop :=
  (e.threads.length > e.lowWatermark ∧ e.tasks.isEmpty) ∨ (e.state ≠ .kRun ∧ e.tasks.isEmpty)

instance (e : Executor τ) : Decidable e.Leaves :=
  inferInstanceAs (Decidable (_ ∨ _))

/-- `wait_for` has returned true: the thread takes itself out of the vector and
returns, or starts its loop again. -/
def awake (e : Executor τ) (w : Nat) : Executor τ :=
  if e.Leaves then { e with threads := e.threads.erase w }.setPhase w .returned
  else e.setPhase w .top

/-- The first critical section of a pass of `perform`, up to the wait. -/
def lock (e : Executor τ) (w : Nat) : Executor τ :=
  let e := { e with numWorking := e.numWorking - 1 }
  if e.Ready then e.awake w else e.setPhase w .waiting

/-- `wait_for` has returned false. The front of an empty queue is undefined. -/
def dequeue (e : Executor τ) (w : Nat) : Option (Executor τ × Outcome τ) :=
  if e.state = .kStopped then some (e.setPhase w .returned, .quiet)
  else
    match e.tasks with
    | [] => none
    | task :: rest =>
      some ({ e with numWorking := e.numWorking + 1, tasks := rest }.setPhase w (.running task),
        .dequeued task)

/-- The end of a sleep: the predicate decides again, and if it does not hold
only the end of the idle time ends the wait. -/
def wake (e : Executor τ) (w : Nat) (timedOut : Bool) : Option (Executor τ × Outcome τ) :=
  if e.Ready then some (e.awake w, .quiet)
  else if timedOut then e.dequeue w
  else some (e, .quiet)

/-- The critical section of `Stop`. -/
def stop (e : Executor τ) (await : Bool) : Executor τ :=
  { e with
    state := if e.state = .kRun then .kStopping else e.state
    stops := e.stops ++ [if await then .checking 0 else .assigning] }

/-- The next step of a call of `Stop`: it looks at the next thread, is done with
joining one, or writes the last state. -/
def goOn (e : Executor τ) (call : Nat) : Option (Executor τ) :=
  match e.stops[call]? with
  | some (.checking i) =>
    match e.threads[i]? with
    | none => some { e with stops := e.stops.set call .assigning }
    | some w =>
      if w ∈ e.joined then some { e with stops := e.stops.set call (.checking (i + 1)) }
      else some { e with stops := e.stops.set call (.joining i w) }
  | some (.joining i w) =>
    match e.workers[w]? with
    | some .returned =>
      some { e with stops := e.stops.set call (.checking (i + 1)), joined := w :: e.joined }
    | _ => none
  | some .assigning => some { e with state := .kStopped, stops := e.stops.set call .done }
  | _ => none

/-- The steps that can be taken: a worker acts from the phase it is in. -/
def Enabled (e : Executor τ) : Act τ → Prop
  | .execute _ => True
  | .lock w => e.workers[w]? = some .top
  | .wake w _ => e.workers[w]? = some .waiting
  | .finish w => ∃ task, e.workers[w]? = some (.running task)
  | .stop _ => True
  | .goOn call => (e.goOn call).isSome

def step (e : Executor τ) : Act τ → Option (Executor τ × Outcome τ)
  | .execute task => some ((e.execute task).1, .executed (e.execute task).2)
  | .lock w =>
    match e.workers[w]? with
    | some .top => some (e.lock w, .quiet)
    | _ => none
  | .wake w timedOut =>
    match e.workers[w]? with
    | some .waiting => e.wake w timedOut
    | _ => none
  | .finish w =>
    match e.workers[w]? with
    | some (.running task) => some (e.setPhase w .top, .ran task)
    | _ => none
  | .stop await => some (e.stop await, .quiet)
  | .goOn call => (e.goOn call).map (·, .quiet)

/-- States a constructed pool reaches, and the steps taken. -/
abbrev Reach (low high maxQueue : Nat) : List (Act τ × Outcome τ) → Executor τ → Prop :=
  PartialRun.Reach step (constructed low high maxQueue)

end Executor

/-- The tasks for which `Execute` returned true, in that order. -/
def acceptedTasks {τ : Type} (history : List (Act τ × Outcome τ)) : List τ :=
  history.filterMap fun
    | (.execute task, .executed true) => some task
    | _ => none

def dequeuedTasks {τ : Type} (history : List (Act τ × Outcome τ)) : List τ :=
  history.filterMap fun
    | (_, .dequeued task) => some task
    | _ => none

def ranTasks {τ : Type} (history : List (Act τ × Outcome τ)) : List τ :=
  history.filterMap fun
    | (_, .ran task) => some task
    | _ => none

end Afina
