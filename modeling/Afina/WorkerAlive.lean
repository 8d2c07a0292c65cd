import Afina.ConnectionPipeline
import Afina.WorkerMoves

namespace Afina

/-- The uv `Worker`: the connections it has opened, numbered in that order and
with their own place in `alive`, whether `OnStop` ran, the close callbacks that
libuv owes for other handles, and the calls of `uv_loop_close`. -/
structure UvWorker where
  conns : List UvConnection
  stopRan : Bool
  handles : Nat
  loopCloses : Nat

/-- The events of the loop: `OnConnectionOpen`, a callback of one connection,
`OnStop`, and `OnHandleClosed` for a handle that is no connection. -/
inductive WorkerEvent
  | connectionOpen (memory : Bytes) (negative : Bool) (accept readStart : Int32)
  | callback (i : Nat) (e : Callback)
  | stop
  | handleClosed
deriving DecidableEq, Repr

namespace UvWorker

variable {uv : Libuv} {passes : Nat}

def started : UvWorker := ⟨[], false, 0, 0⟩

/-- The set `alive`, as the numbers of its connections. -/
def alive (w : UvWorker) : List Nat :=
  (List.range w.conns.length).filter fun i => w.conns[i]?.any UvConnection.alive

def closeEventLoppIfPossible (w : UvWorker) : UvWorker :=
  if w.alive = [] then { w with loopCloses := w.loopCloses + 1 } else w

/-- `OnStop` closes the three handles of the worker itself, and goes through
`alive`. -/
def onStop (w : UvWorker) : UvWorker :=
  { w with
    conns := w.conns.map UvConnection.onStop
    stopRan := true
    handles := w.handles + 3 }.closeEventLoppIfPossible

/-- One callback of a connection. Each result that goes to `uv_write` has had
its async closed before. -/
def onCallback (uv : Libuv) (passes : Nat) (w : UvWorker) (i : Nat) (e : Callback) :
    Option UvWorker := do
  let c ← w.conns[i]?
  let (d, _) ← c.step uv passes e
  let w := { w with conns := w.conns.set i d }
  match e with
  | .stop => none
  | .closed => pure w.closeEventLoppIfPossible
  | .executionDone _ => pure { w with handles := w.handles + 1 }
  | .readData _ =>
    pure { w with handles := w.handles +
      (d.session.clientErrors.length - c.session.clientErrors.length) }
  | _ => pure w

/-- A handle of a connection was closed twice. -/
def Aborted (w : UvWorker) : Prop := ∃ c ∈ w.conns, c.ClosedTwice

instance (w : UvWorker) : Decidable w.Aborted :=
  inferInstanceAs (Decidable (∃ c ∈ w.conns, c.ClosedTwice))

/-- One event, if libuv may deliver it: nothing is accepted once `OnStop` has
closed the server's handle. -/
def onEvent (uv : Libuv) (passes : Nat) (w : UvWorker) : WorkerEvent → Option (UvWorker × Unit)
  | .connectionOpen memory negative accept readStart =>
    if w.stopRan then none
    else some ({ w with
      conns := w.conns ++ [.onConnectionOpen memory negative accept readStart] }, ())
  | .callback i e => (w.onCallback uv passes i e).map (·, ())
  | .stop => if w.stopRan then none else some (w.onStop, ())
  | .handleClosed =>
    if w.handles = 0 then none
    else some ({ w with handles := w.handles - 1 }.closeEventLoppIfPossible, ())

/-- One event of the loop. None comes behind a second `uv_close` on a handle. -/
def step (uv : Libuv) (passes : Nat) (w : UvWorker) (e : WorkerEvent) :
    Option (UvWorker × Unit) :=
  if w.Aborted then none else w.onEvent uv passes e

abbrev Reach (uv : Libuv) (passes : Nat) : List (WorkerEvent × Unit) → UvWorker → Prop :=
  PartialRun.Reach (step uv passes) started

/-- `alive` has the connections whose close callback has not run, so when all
have run it is empty and the loop is closed. -/
structure Exact (w : UvWorker) : Prop where
  alive : ∀ i, i ∈ w.alive ↔ ∃ c, w.conns[i]? = some c ∧ c.closeRan = false
  last : (∀ c ∈ w.conns, c.closeRan = true) →
    w.alive = [] ∧ w.closeEventLoppIfPossible.loopCloses = w.loopCloses + 1

/-- The close callback that runs is not the one that `OnConnectionOpen` registers
when it fails. -/
def TakesOut (w : UvWorker) : WorkerEvent → Prop
  | .callback i .closed => ∀ c, w.conns[i]? = some c → c.closeRan = false →
      c.closes.getLast? ≠ some .onHandleClosed
  | _ => True

theorem mem_alive {w : UvWorker} {i : Nat} :
    i ∈ w.alive ↔ ∃ c, w.conns[i]? = some c ∧ c.alive = true := by
  simp only [UvWorker.alive, List.mem_filter, List.mem_range, Option.any_eq_true]
  constructor
  · exact fun h => h.2
  · rintro ⟨c, hc, halive⟩
    exact ⟨(List.getElem?_eq_some_iff.mp hc).1, c, hc, halive⟩

/-- The property connection by connection. -/
def EachExact (w : UvWorker) : Prop := ∀ c ∈ w.conns, (c.alive = true ↔ c.closeRan = false)

theorem exact_iff (w : UvWorker) : w.Exact ↔ w.EachExact := by
  constructor
  · intro h c hc
    obtain ⟨i, hi⟩ := List.mem_iff_getElem?.mp hc
    have hexact := h.alive i
    rw [mem_alive] at hexact
    simpa [hi] using hexact
  · intro h
    have halive : ∀ i, i ∈ w.alive ↔ ∃ c, w.conns[i]? = some c ∧ c.closeRan = false := by
      intro i
      rw [mem_alive]
      constructor
      · rintro ⟨c, hc, ha⟩
        exact ⟨c, hc, (h c (List.mem_of_getElem? hc)).mp ha⟩
      · rintro ⟨c, hc, ha⟩
        exact ⟨c, hc, (h c (List.mem_of_getElem? hc)).mpr ha⟩
    refine ⟨halive, fun hall => ?_⟩
    have hempty : w.alive = [] := by
      rw [List.eq_nil_iff_forall_not_mem]
      intro i hi
      obtain ⟨c, hc, hopen⟩ := (halive i).mp hi
      rw [hall c (List.mem_of_getElem? hc)] at hopen
      cases hopen
    exact ⟨hempty, by rw [closeEventLoppIfPossible, if_pos hempty]⟩

@[simp] theorem closeEventLoppIfPossible_conns (w : UvWorker) :
    w.closeEventLoppIfPossible.conns = w.conns := by
  unfold closeEventLoppIfPossible
  split <;> rfl

/-- What a callback of a connection does to its place in `alive`. -/
theorem alive_of_step {c d : UvConnection} {e : Callback} {r : Unit}
    (hs : c.step uv passes e = some (d, r)) :
    (d.alive = c.alive ∧ d.closeRan = c.closeRan ∧ e ≠ .closed) ∨
      (e = .closed ∧ c.closeRan = false ∧ d.closeRan = true ∧
        ((c.closes.getLast? = some .onConnectionClosed ∧ d.alive = false) ∨
          (c.closes.getLast? = some .onHandleClosed ∧ d.alive = c.alive))) := by
  cases UvConnection.moves_of_step hs with
  | read reading step => exact Or.inl ⟨rfl, rfl, by simp⟩
  | ended reading moved => exact Or.inl ⟨rfl, rfl, by simp⟩
  | executed sent rc => exact Or.inl ⟨rfl, rfl, by simp⟩
  | wrote pending status =>
    obtain ⟨d, rfl, ⟨_, _, hd⟩ | ⟨_, hd⟩⟩ := c.onWriteDone_cases <;> rw [hd]
    · exact Or.inl ⟨rfl, rfl, by simp⟩
    · exact Or.inl ⟨rfl, rfl, by simp⟩
  | stopped first =>
    obtain ⟨_, hd⟩ | ⟨d, rfl, _, ⟨_, hd⟩ | ⟨_, hd⟩⟩ := c.onStop_cases <;> rw [hd]
    · exact Or.inl ⟨rfl, rfl, by simp⟩
    · exact Or.inl ⟨rfl, rfl, by simp⟩
    · exact Or.inl ⟨rfl, rfl, by simp⟩
  | @closed callback last first =>
    cases callback with
    | onConnectionClosed => exact Or.inr ⟨rfl, first, rfl, Or.inl ⟨last, rfl⟩⟩
    | onHandleClosed => exact Or.inr ⟨rfl, first, rfl, Or.inr ⟨last, rfl⟩⟩

theorem onStop_alive (c : UvConnection) :
    c.onStop.alive = c.alive ∧ c.onStop.closeRan = c.closeRan := by
  obtain ⟨_, hd⟩ | ⟨d, rfl, _, ⟨_, hd⟩ | ⟨_, hd⟩⟩ := c.onStop_cases <;> rw [hd] <;> exact ⟨rfl, rfl⟩

theorem onEvent_of_step {w w' : UvWorker} {e : WorkerEvent} {r : Unit}
    (h : w.step uv passes e = some (w', r)) :
    ¬ w.Aborted ∧ w.onEvent uv passes e = some (w', r) :=
  Option.ite_none_left_eq_some.mp h

theorem step_of_onEvent {w : UvWorker} {e : WorkerEvent} (hrunning : ¬ w.Aborted) :
    w.step uv passes e = w.onEvent uv passes e :=
  if_neg hrunning

theorem onCallback_conns {w w' : UvWorker} {i : Nat} {e : Callback}
    (h : w.onCallback uv passes i e = some w') :
    ∃ c d, w.conns[i]? = some c ∧ c.step uv passes e = some (d, ()) ∧
      w'.conns = w.conns.set i d := by
  obtain ⟨c, hc, h⟩ := Option.bind_eq_some_iff.mp h
  obtain ⟨⟨d, r⟩, hd, h⟩ := Option.bind_eq_some_iff.mp h
  refine ⟨c, d, hc, hd, ?_⟩
  cases e with
  | stop => cases h
  | closed => cases Option.some.inj h; simp
  | readData data => cases Option.some.inj h; rfl
  | readFailed nread => cases Option.some.inj h; rfl
  | executionDone rc => cases Option.some.inj h; rfl
  | writeDone status => cases Option.some.inj h; rfl

theorem EachExact.step {w w' : UvWorker} {e : WorkerEvent} {r : Unit} (h : w.EachExact)
    (htakes : w.TakesOut e) (hs : w.step uv passes e = some (w', r)) : w'.EachExact := by
  obtain ⟨_, hs⟩ := onEvent_of_step hs
  cases e with
  | connectionOpen memory negative accept readStart =>
    simp only [UvWorker.onEvent] at hs
    split at hs
    next => cases hs
    next =>
      cases Option.some.inj hs
      intro c hc
      rcases List.mem_append.mp hc with hc | hc
      · exact h c hc
      · rw [List.mem_singleton.mp hc, UvConnection.onConnectionOpen]
        dsimp only
        split
        next => simp [UvConnection.uvClose]
        next => split <;> simp [UvConnection.uvClose]
  | callback i e =>
    obtain ⟨w'', hw, he⟩ := Option.map_eq_some_iff.mp hs
    cases he
    obtain ⟨c, d, hc, hd, hconns⟩ := onCallback_conns hw
    intro c' hc'
    rw [hconns] at hc'
    rcases List.mem_or_eq_of_mem_set hc' with hc' | rfl
    · exact h c' hc'
    · have hbefore := h c (List.mem_of_getElem? hc)
      rcases alive_of_step hd with ⟨ha, hr, _⟩ | ⟨rfl, hopen, hr, ⟨_, ha⟩ | ⟨hlast, _⟩⟩
      · rw [ha, hr]
        exact hbefore
      · simp [ha, hr]
      · exact absurd hlast (htakes c hc hopen)
  | stop =>
    simp only [UvWorker.onEvent] at hs
    split at hs
    next => cases hs
    next =>
      cases Option.some.inj hs
      intro c hc
      simp only [onStop, closeEventLoppIfPossible_conns, List.mem_map] at hc
      obtain ⟨c', hc', rfl⟩ := hc
      rw [(onStop_alive c').1, (onStop_alive c').2]
      exact h c' hc'
  | handleClosed =>
    simp only [UvWorker.onEvent] at hs
    split at hs
    next => cases hs
    next =>
      cases Option.some.inj hs
      intro c hc
      rw [closeEventLoppIfPossible_conns] at hc
      exact h c hc

theorem takesOut_of_step {w : UvWorker} {e : WorkerEvent} (h : w.EachExact)
    (hrunning : ¬ w.Aborted)
    (hnext : ∀ w' r, w.step uv passes e = some (w', r) → w'.EachExact) : w.TakesOut e := by
  cases e with
  | connectionOpen memory negative accept readStart => exact trivial
  | stop => exact trivial
  | handleClosed => exact trivial
  | callback i e =>
    cases e with
    | closed =>
      intro c hc hopen hlast
      have honce : ¬ c.ClosedTwice := fun htwice => hrunning ⟨c, List.mem_of_getElem? hc, htwice⟩
      have hd : c.step uv passes .closed = some ({ c with closeRan := true }, ()) :=
        UvConnection.step_closed honce hlast hopen
      have hw : w.step uv passes (.callback i .closed) =
          some (({ w with conns := w.conns.set i { c with closeRan := true } } :
            UvWorker).closeEventLoppIfPossible, ()) := by
        rw [step_of_onEvent hrunning]
        simp [onEvent, onCallback, hc, hd]
      have hexact := hnext _ () hw { c with closeRan := true } (by
        rw [closeEventLoppIfPossible_conns]
        exact List.mem_set (List.getElem?_eq_some_iff.mp hc).1 _)
      have halive := (h c (List.mem_of_getElem? hc)).mpr hopen
      simp [halive] at hexact
    | readData data => exact trivial
    | readFailed nread => exact trivial
    | executionDone rc => exact trivial
    | writeDone status => exact trivial
    | stop => exact trivial

end UvWorker

/-- In a run of a worker `alive` is exact in every state reached, if and only if
no close callback that runs is the one registered when the set-up of a
connection failed. No callback runs once a handle was closed twice. -/
theorem alive_exact_iff (uv : Libuv) (passes : Nat) (events : List WorkerEvent) :
    (∀ history w, UvWorker.Reach uv passes history w → history.map Prod.fst <+: events →
        w.Exact) ↔
      ∀ history w e, UvWorker.Reach uv passes history w →
        history.map Prod.fst ++ [e] <+: events → ¬ w.Aborted → w.TakesOut e := by
  simp only [UvWorker.exact_iff]
  refine PartialRun.holds_along_iff (I := fun _ => True)
    (C := fun (w : UvWorker) e => ¬ w.Aborted → w.TakesOut e) trivial (fun _ _ _ _ _ _ => trivial)
    (fun c hc => ?_) (fun w e _ h => ⟨fun hnext hrunning => ?_, fun htakes w' r hs => ?_⟩) events
  · simp [UvWorker.started] at hc
  · exact UvWorker.takesOut_of_step h hrunning hnext
  · exact h.step (htakes (UvWorker.onEvent_of_step hs).1) hs

/-- `uv_accept` fails: the close callback runs and the connection stays in
`alive`, so the loop is not closed. -/
theorem failed_accept_stays_alive :
    ∃ history w, UvWorker.Reach .working 8 history w ∧
      history.map Prod.fst = [.connectionOpen (List.replicate connectionInputBufferSize 0) false
        (-1) 0, .callback 0 .closed] ∧
      ((∀ c ∈ w.conns, c.closeRan = true) ∧ w.alive = [0] ∧ w.loopCloses = 0) ∧ ¬ w.Exact := by
  obtain ⟨history, w, reach, hcalls, hend⟩ := PartialRun.reach_of_check
    (UvWorker.step .working 8) .started
    [.connectionOpen (List.replicate connectionInputBufferSize 0) false (-1) 0, .callback 0 .closed]
    (fun w => (∀ c ∈ w.conns, c.closeRan = true) ∧ w.alive = [0] ∧ w.loopCloses = 0) (by decide)
  refine ⟨history, w, reach, hcalls, hend, fun hexact => ?_⟩
  have hempty := (hexact.last hend.1).1
  rw [hend.2.1] at hempty
  cases hempty

end Afina
