import Afina.CommandPrograms
import Afina.WorkerAlive

namespace Afina

namespace UvWorker

variable {uv : Libuv} {passes : Nat}

/-- The handles that a callback of a connection closes, which are those of tasks. -/
def tasksDone (c d : UvConnection) : Callback → Nat
  | .executionDone _ => 1
  | .readData _ => d.session.clientErrors.length - c.session.clientErrors.length
  | _ => 0

/-- All that one event can do to a worker. -/
inductive Moves (uv : Libuv) (passes : Nat) (w : UvWorker) : WorkerEvent → UvWorker → Prop
  | opened (running : w.stopRan = false) (memory : Bytes) (negative : Bool)
      (accept readStart : Int32) :
      Moves uv passes w (.connectionOpen memory negative accept readStart)
        { w with conns := w.conns ++ [.onConnectionOpen memory negative accept readStart] }
  | called {i : Nat} {e : Callback} {c d : UvConnection} (conn : w.conns[i]? = some c)
      (step : c.step uv passes e = some (d, ())) (noStop : e ≠ .stop) (noClose : e ≠ .closed) :
      Moves uv passes w (.callback i e)
        { w with conns := w.conns.set i d, handles := w.handles + tasksDone c d e }
  | closed {i : Nat} {c d : UvConnection} (conn : w.conns[i]? = some c)
      (step : c.step uv passes .closed = some (d, ())) :
      Moves uv passes w (.callback i .closed)
        ({ w with conns := w.conns.set i d } : UvWorker).closeEventLoppIfPossible
  | stopped (running : w.stopRan = false) : Moves uv passes w .stop w.onStop
  | handleClosed (pending : 0 < w.handles) :
      Moves uv passes w .handleClosed
        ({ w with handles := w.handles - 1 } : UvWorker).closeEventLoppIfPossible

theorem onCallback_moves {w w' : UvWorker} {i : Nat} {e : Callback}
    (h : w.onCallback uv passes i e = some w') : Moves uv passes w (.callback i e) w' := by
  obtain ⟨c, hc, h⟩ := Option.bind_eq_some_iff.mp h
  obtain ⟨⟨d, r⟩, hd, h⟩ := Option.bind_eq_some_iff.mp h
  cases e with
  | stop => cases h
  | closed => cases Option.some.inj h; exact .closed hc hd
  | readData data => cases Option.some.inj h; exact .called hc hd (by simp) (by simp)
  | readFailed nread => cases Option.some.inj h; exact .called hc hd (by simp) (by simp)
  | executionDone rc => cases Option.some.inj h; exact .called hc hd (by simp) (by simp)
  | writeDone status => cases Option.some.inj h; exact .called hc hd (by simp) (by simp)

theorem moves_of_step {w w' : UvWorker} {e : WorkerEvent} {r : Unit}
    (h : w.step uv passes e = some (w', r)) : Moves uv passes w e w' := by
  obtain ⟨_, h⟩ := onEvent_of_step h
  cases e with
  | connectionOpen memory negative accept readStart =>
    simp only [onEvent] at h
    split at h
    next => cases h
    next running =>
      cases Option.some.inj h
      exact .opened (Bool.eq_false_iff.mpr running) memory negative accept readStart
  | callback i e =>
    obtain ⟨w'', hw, he⟩ := Option.map_eq_some_iff.mp h
    cases he
    exact onCallback_moves hw
  | stop =>
    simp only [onEvent] at h
    split at h
    next => cases h
    next running =>
      cases Option.some.inj h
      exact .stopped (Bool.eq_false_iff.mpr running)
  | handleClosed =>
    simp only [onEvent] at h
    split at h
    next => cases h
    next pending =>
      cases Option.some.inj h
      exact .handleClosed (Nat.pos_of_ne_zero pending)

end UvWorker

/-- What is handed to `uv_write`: the result of a command, by the callback of its
async, or an error reply, by the read that met the error. -/
inductive Sent
  | result (output : Bytes)
  | error (output : Bytes)
deriving DecidableEq, Repr

/-- A uv worker with the storage its commands are executed on, the results that
wait for the callback of their async, oldest first, and all that was handed to
`uv_write`, each with the number of its connection. The storage is the worker's own:
this is a server that was started with one worker, as `ServerImpl::Start` allows. The
workers of a server started with several share their storage, and what each of them
does to it between the callbacks of this one is not here. -/
structure UvService where
  worker : UvWorker
  store : Store
  results : List (Nat × Bytes)
  written : List (Nat × Sent)

/-- The result of a task: the output of its command and a line end. -/
def taskResult (output : Bytes) : Bytes := output ++ [cr, lf]

namespace UvService

def started (maxSize : Int32) : UvService := ⟨.started, Store.fresh maxSize, [], []⟩

/-- What a read of one connection leaves behind it: its commands executed in their
order, their results, and its error reply. -/
def served (v : UvService) (w : UvWorker) (i : Nat) (before after : Session) : Option UvService := do
  let (s, outputs) ←
    PartialRun.run Store.serve v.store (after.executed.drop before.executed.length)
  pure {
    worker := w
    store := s
    results := v.results ++ outputs.map fun e => (i, taskResult e.2)
    written := v.written ++
      (after.clientErrors.drop before.clientErrors.length).map fun e => (i, .error e) }

/-- One event of the loop. The asyncs that were sent are called back in the order
in which they were set up. -/
def step (uv : Libuv) (passes : Nat) (v : UvService) (e : WorkerEvent) :
    Option (UvService × Unit) := do
  let (w, _) ← v.worker.step uv passes e
  match e with
  | .callback i (.readData _) =>
    let c ← v.worker.conns[i]?
    let d ← w.conns[i]?
    let v ← v.served w i c.session d.session
    pure (v, ())
  | .callback i (.executionDone _) =>
    match v.results with
    | (j, output) :: rest =>
      if j = i then
        pure ({ v with
          worker := w, results := rest, written := v.written ++ [(i, .result output)] }, ())
      else none
    | [] => none
  | _ => pure ({ v with worker := w }, ())

/-- States of a service from its start on. -/
abbrev Reach (uv : Libuv) (passes : Nat) (maxSize : Int32) :
    List (WorkerEvent × Unit) → UvService → Prop :=
  PartialRun.Reach (step uv passes) (started maxSize)

/-- All that an event can be to the service: a read that executes commands, the
callback of the oldest async, or an event of the worker alone. -/
inductive Moves (uv : Libuv) (passes : Nat) (v : UvService) : WorkerEvent → UvService → Prop
  | read {w : UvWorker} {i : Nat} {data : Bytes} {c d : UvConnection} {s : Store}
      {outputs : List ((Command × Bytes) × Bytes)} (conn : v.worker.conns[i]? = some c)
      (step : c.step uv passes (.readData data) = some (d, ()))
      (conns : w.conns = v.worker.conns.set i d)
      (runs : PartialRun.run Store.serve v.store
        (d.session.executed.drop c.session.executed.length) = some (s, outputs)) :
      Moves uv passes v (.callback i (.readData data)) {
        worker := w
        store := s
        results := v.results ++ outputs.map fun e => (i, taskResult e.2)
        written := v.written ++ (d.session.clientErrors.drop c.session.clientErrors.length).map
          fun e => (i, .error e) }
  | done {w : UvWorker} {i : Nat} {rc : Int32} {c d : UvConnection} {output : Bytes}
      {rest : List (Nat × Bytes)} (conn : v.worker.conns[i]? = some c)
      (step : c.step uv passes (.executionDone rc) = some (d, ()))
      (conns : w.conns = v.worker.conns.set i d) (first : v.results = (i, output) :: rest) :
      Moves uv passes v (.callback i (.executionDone rc)) { v with
        worker := w, results := rest, written := v.written ++ [(i, .result output)] }
  | other {w : UvWorker} {e : WorkerEvent} (step : v.worker.step uv passes e = some (w, ()))
      (noRead : ∀ i data, e ≠ .callback i (.readData data))
      (noDone : ∀ i rc, e ≠ .callback i (.executionDone rc)) :
      Moves uv passes v e { v with worker := w }

variable {uv : Libuv} {passes : Nat}

theorem moves_of_step {v v' : UvService} {e : WorkerEvent} {r : Unit}
    (h : v.step uv passes e = some (v', r)) : Moves uv passes v e v' := by
  obtain ⟨⟨w, _⟩, hw, h⟩ := Option.bind_eq_some_iff.mp h
  dsimp only at h
  split at h
  next i data =>
    obtain ⟨c, hc, h⟩ := Option.bind_eq_some_iff.mp h
    obtain ⟨d, hd, h⟩ := Option.bind_eq_some_iff.mp h
    obtain ⟨v'', hserved, h⟩ := Option.bind_eq_some_iff.mp h
    cases h
    obtain ⟨w', hcall, he⟩ := Option.map_eq_some_iff.mp (UvWorker.onEvent_of_step hw).2
    cases he
    obtain ⟨c', d', hc', hstep, hconns⟩ := UvWorker.onCallback_conns hcall
    cases hc.symm.trans hc'
    have hd' : d = d' := by
      have hlt := (List.getElem?_eq_some_iff.mp hc).1
      rw [hconns, List.getElem?_set_self hlt] at hd
      exact (Option.some.inj hd).symm
    subst hd'
    obtain ⟨⟨s, outputs⟩, hruns, h⟩ := Option.bind_eq_some_iff.mp hserved
    cases h
    exact .read hc hstep hconns hruns
  next i rc =>
    split at h
    next j output rest hfirst =>
      split at h
      next hj =>
        cases h
        subst hj
        obtain ⟨w', hcall, he⟩ := Option.map_eq_some_iff.mp (UvWorker.onEvent_of_step hw).2
        cases he
        obtain ⟨c, d, hc, hstep, hconns⟩ := UvWorker.onCallback_conns hcall
        exact .done hc hstep hconns hfirst
      next => cases h
    next => cases h
  next hread hdone =>
    cases h
    exact .other hw (fun i data => hread i data) (fun i rc => hdone i rc)

end UvService

end Afina
