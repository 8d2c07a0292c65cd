import Afina.UvReplies
import Afina.WorkerClose
import Afina.WorkerCounts

namespace Afina

open Tagged

namespace UvConnection

variable {uv : Libuv} {passes : Nat}

/-- A connection that was set up and on which the protocol stood every callback. It
is in `alive` until it is deleted, and once the worker was stopped it is closed and
reads no more. -/
structure Tended (c : UvConnection) : Prop where
  orderly : c.Orderly
  accounted : c.Accounted
  callbacks : ∀ callback ∈ c.closes, callback = .onConnectionClosed
  alive : c.alive = !c.closeRan
  deleted : c.deleted = c.closeRan
  silenced : c.stopRan = true → c.reading = false
  marked : c.stopRan = true → c.alive = true → c.session.conn.state = .sClosed

theorem onConnectionOpen_tended (memory : Bytes) (negative : Bool) :
    (onConnectionOpen memory negative 0 0).Tended where
  orderly := onConnectionOpen_orderly memory negative 0 0
  accounted := onConnectionOpen_accounted memory negative 0 0
  callbacks := by simp [onConnectionOpen]
  alive := rfl
  deleted := rfl
  silenced h := by cases h
  marked h := by cases h

@[simp] theorem onWriteDone_writes (c : UvConnection) : c.onWriteDone.writes = c.writes - 1 := by
  unfold onWriteDone
  dsimp only
  split <;> rfl

@[simp] theorem onWriteDone_asyncs (c : UvConnection) : c.onWriteDone.asyncs = c.asyncs := by
  unfold onWriteDone
  dsimp only
  split <;> rfl

@[simp] theorem onWriteDone_stopRan (c : UvConnection) : c.onWriteDone.stopRan = c.stopRan := by
  unfold onWriteDone
  dsimp only
  split <;> rfl

@[simp] theorem onWriteDone_closeRan (c : UvConnection) : c.onWriteDone.closeRan = c.closeRan := by
  unfold onWriteDone
  dsimp only
  split <;> rfl

@[simp] theorem onWriteDone_deleted (c : UvConnection) : c.onWriteDone.deleted = c.deleted := by
  unfold onWriteDone
  dsimp only
  split <;> rfl

@[simp] theorem onStop_asyncs (c : UvConnection) : c.onStop.asyncs = c.asyncs := by
  unfold onStop
  dsimp only
  split
  next => split <;> rfl
  next => rfl

@[simp] theorem onStop_stopRan (c : UvConnection) : c.onStop.stopRan = true := by
  unfold onStop
  dsimp only
  split
  next => split <;> rfl
  next => rfl

@[simp] theorem onConnectionOpen_asyncs (memory : Bytes) (negative : Bool) (accept readStart : Int32) :
    (onConnectionOpen memory negative accept readStart).asyncs = 0 := by
  unfold onConnectionOpen
  dsimp only
  split
  next => rfl
  next => split <;> rfl

theorem asyncsWork_of_works (works : ∀ log, uv.asyncInit log = 0) (c : UvConnection) (e : Callback) :
    c.AsyncsWork uv passes e := by
  cases e with
  | readData data =>
    rintro d _ ⟨_, a, _, m, _, hf⟩
    exact hf (works m.log)
  | readFailed nread => exact trivial
  | executionDone rc => exact trivial
  | writeDone status => exact trivial
  | stop => exact trivial
  | closed => exact trivial

theorem mem_callbacks {closes : List CloseCallback}
    (h : ∀ callback ∈ closes, callback = CloseCallback.onConnectionClosed) :
    ∀ callback ∈ closes ++ [.onConnectionClosed], callback = CloseCallback.onConnectionClosed := by
  intro callback hmem
  rcases List.mem_append.mp hmem with hmem | hmem
  · exact h callback hmem
  · exact List.mem_singleton.mp hmem

theorem Tended.onStop {c : UvConnection} (h : c.Tended) (hstands : c.Stands .stop) :
    c.onStop.Tended := by
  have horderly := h.orderly.onStop hstands
  have haccounted := h.accounted.onStop
  obtain ⟨halive, hd⟩ | ⟨d, rfl, _, ⟨_, hd⟩ | ⟨_, hd⟩⟩ := c.onStop_cases <;>
    rw [hd] at horderly haccounted ⊢
  · have hclosed : c.closeRan = true := by
      have := h.alive
      rw [halive] at this
      simpa using this.symm
    refine ⟨horderly, haccounted, h.callbacks, h.alive, h.deleted, fun _ => ?_, fun _ ha => ?_⟩
    · have hne : c.closes ≠ [] := fun hnil => by
        rw [h.orderly.pending hnil] at hclosed
        cases hclosed
      exact (h.orderly.idle hne).2
    · cases halive.symm.trans ha
  · exact ⟨horderly, haccounted, mem_callbacks h.callbacks, h.alive, h.deleted, fun _ => rfl,
      fun _ _ => rfl⟩
  · exact ⟨horderly, haccounted, h.callbacks, h.alive, h.deleted, fun _ => rfl, fun _ _ => rfl⟩

theorem Tended.step (works : ∀ log, uv.asyncInit log = 0) {c d : UvConnection} (h : c.Tended)
    {e : Callback} {r : Unit} (hstands : c.Stands e) (hs : c.step uv passes e = some (d, r)) :
    d.Tended := by
  have horderly := h.orderly.step hstands hs
  have haccounted := h.accounted.step (asyncsWork_of_works works c e) hs
  cases moves_of_step hs with
  | read reading step =>
    have hrunning : c.stopRan ≠ true := fun hstop => by
      rw [h.silenced hstop] at reading
      cases reading
    exact ⟨horderly, haccounted, h.callbacks, h.alive, h.deleted, h.silenced,
      fun hstop => absurd hstop hrunning⟩
  | ended reading moved =>
    have hrunning : c.stopRan ≠ true := fun hstop => by
      rw [h.silenced hstop] at reading
      cases reading
    exact ⟨horderly, haccounted, mem_callbacks h.callbacks, h.alive, h.deleted, fun _ => rfl,
      fun hstop => absurd hstop hrunning⟩
  | executed sent rc =>
    exact ⟨horderly, haccounted, h.callbacks, h.alive, h.deleted, h.silenced, h.marked⟩
  | wrote pending status =>
    obtain ⟨d, rfl, ⟨_, _, hd⟩ | ⟨_, hd⟩⟩ := c.onWriteDone_cases <;> rw [hd] at horderly haccounted ⊢
    · exact ⟨horderly, haccounted, mem_callbacks h.callbacks, h.alive, h.deleted, fun _ => rfl,
        h.marked⟩
    · exact ⟨horderly, haccounted, h.callbacks, h.alive, h.deleted, h.silenced, h.marked⟩
  | stopped first => exact h.onStop hstands
  | @closed callback last first =>
    have halive : c.alive = true := by
      rw [h.alive, first]
      rfl
    cases h.callbacks callback (List.mem_of_getLast? last)
    exact ⟨horderly, haccounted, h.callbacks, rfl, halive, h.silenced, fun _ hno => by cases hno⟩

/-- What is still to come of a connection that reads no more: an async goes on as a
write and as a handle to close. -/
def load (c : UvConnection) : Nat := 3 * c.asyncs + c.writes + if c.closeRan then 0 else 1

/-- Behind the stop every callback of a connection brings its end nearer. -/
theorem Tended.load_lt {c d : UvConnection} (h : c.Tended) (hstop : c.stopRan = true) {e : Callback}
    {r : Unit} (hs : c.step uv passes e = some (d, r)) :
    d.load + UvWorker.tasksDone c d e < c.load := by
  cases moves_of_step hs with
  | read reading step => simp [h.silenced hstop] at reading
  | ended reading moved => simp [h.silenced hstop] at reading
  | executed sent rc =>
    simp only [load, UvWorker.tasksDone]
    omega
  | wrote pending status =>
    simp only [UvWorker.tasksDone, load, onWriteDone_asyncs, onWriteDone_writes,
      onWriteDone_closeRan]
    omega
  | stopped first => cases first.symm.trans hstop
  | @closed callback last first =>
    have hless : ({ c with closeRan := true }.onClosed callback).load + 1 = c.load := by
      cases callback <;> simp [load, onClosed, onConnectionClosed, first]
    simp only [UvWorker.tasksDone]
    omega

/-- A connection for which nothing is to come is deleted, if the worker was stopped. -/
theorem Tended.deleted_of_idle {c : UvConnection} (h : c.Tended) (hstop : c.stopRan = true)
    (hasyncs : c.asyncs = 0) (hwrites : c.writes = 0)
    (hend : c.step uv passes .closed = none) : c.deleted = true := by
  rw [h.deleted]
  by_contra hopen
  have hopen := Bool.eq_false_iff.mpr hopen
  have halive : c.alive = true := by
    rw [h.alive, hopen]
    rfl
  have hclosing : c.closes ≠ [] :=
    h.accounted.closed (h.marked hstop halive) (by omega)
  have hlast := List.getLast?_eq_some_getLast hclosing
  rw [step_closed h.orderly.not_closedTwice hlast hopen] at hend
  cases hend

end UvConnection

namespace UvWorker

variable {uv : Libuv} {passes : Nat}

/-- The events that the protocol stands: connections are set up without an error,
and each connection stands its callbacks. -/
def Stands (w : UvWorker) : WorkerEvent → Prop
  | .connectionOpen _ _ accept readStart => accept = 0 ∧ readStart = 0
  | .callback i e => ∀ c ∈ w.conns[i]?, c.Stands e
  | .stop => ∀ c ∈ w.conns, c.Stands .stop
  | .handleClosed => True

instance (w : UvWorker) (e : WorkerEvent) : Decidable (w.Stands e) :=
  match e with
  | .connectionOpen _ _ accept readStart =>
    inferInstanceAs (Decidable (accept = 0 ∧ readStart = 0))
  | .callback i e => inferInstanceAs (Decidable (∀ c ∈ w.conns[i]?, c.Stands e))
  | .stop => inferInstanceAs (Decidable (∀ c ∈ w.conns, c.Stands .stop))
  | .handleClosed => inferInstanceAs (Decidable True)

/-- Every connection is tended and knows of the stop. -/
structure Tended (w : UvWorker) : Prop where
  conns : ∀ c ∈ w.conns, c.Tended
  stopRan : ∀ c ∈ w.conns, c.stopRan = w.stopRan

theorem started_tended : started.Tended :=
  ⟨by simp [started], by simp [started]⟩

theorem Tended.not_aborted {w : UvWorker} (h : w.Tended) : ¬ w.Aborted := by
  rintro ⟨c, hc, htwice⟩
  exact (h.conns c hc).orderly.not_closedTwice htwice

theorem closeEventLoppIfPossible_cases (w : UvWorker) :
    (w.alive = [] ∧ w.closeEventLoppIfPossible = { w with loopCloses := w.loopCloses + 1 }) ∨
      (w.alive ≠ [] ∧ w.closeEventLoppIfPossible = w) := by
  unfold closeEventLoppIfPossible
  split
  next h => exact Or.inl ⟨h, rfl⟩
  next h => exact Or.inr ⟨h, rfl⟩

theorem Tended.close {w : UvWorker} (h : w.Tended) : w.closeEventLoppIfPossible.Tended := by
  obtain ⟨_, hw⟩ | ⟨_, hw⟩ := w.closeEventLoppIfPossible_cases <;> rw [hw] <;>
    exact ⟨h.conns, h.stopRan⟩

theorem stopRan_of_step {c d : UvConnection} {e : Callback} {r : Unit} (hno : e ≠ .stop)
    (hs : c.step uv passes e = some (d, r)) : d.stopRan = c.stopRan := by
  cases UvConnection.moves_of_step hs with
  | read reading step => rfl
  | ended reading moved => rfl
  | executed sent rc => rfl
  | wrote pending status => exact c.onWriteDone_stopRan
  | stopped first => exact absurd rfl hno
  | @closed callback last first => cases callback <;> rfl

theorem Tended.set (works : ∀ log, uv.asyncInit log = 0) {w : UvWorker} (h : w.Tended) {i : Nat}
    {c d : UvConnection} {e : Callback} (hc : w.conns[i]? = some c) (hstands : c.Stands e)
    (hno : e ≠ .stop) (hs : c.step uv passes e = some (d, ())) :
    ∀ c' ∈ w.conns.set i d, c'.Tended ∧ c'.stopRan = w.stopRan := by
  have hmem := List.mem_of_getElem? hc
  intro c' hc'
  rcases List.mem_or_eq_of_mem_set hc' with hc' | rfl
  · exact ⟨h.conns c' hc', h.stopRan c' hc'⟩
  · exact ⟨(h.conns c hmem).step works hstands hs,
      (stopRan_of_step hno hs).trans (h.stopRan c hmem)⟩

theorem Tended.step (works : ∀ log, uv.asyncInit log = 0) {w w' : UvWorker} (h : w.Tended)
    {e : WorkerEvent} {r : Unit} (hstands : w.Stands e) (hs : w.step uv passes e = some (w', r)) :
    w'.Tended := by
  cases moves_of_step hs with
  | opened running memory negative accept readStart =>
    obtain ⟨rfl, rfl⟩ := hstands
    refine ⟨fun c hc => ?_, fun c hc => ?_⟩
    · rcases List.mem_append.mp hc with hc | hc
      · exact h.conns c hc
      · rw [List.mem_singleton.mp hc]
        exact UvConnection.onConnectionOpen_tended memory negative
    · rcases List.mem_append.mp hc with hc | hc
      · exact h.stopRan c hc
      · rw [List.mem_singleton.mp hc]
        exact running.symm
  | called conn step noStop noClose =>
    have hset := h.set works conn (hstands _ conn) noStop step
    exact ⟨fun c hc => (hset c hc).1, fun c hc => (hset c hc).2⟩
  | closed conn step =>
    have hset := h.set works conn (hstands _ conn) (by simp) step
    exact Tended.close ⟨fun c hc => (hset c hc).1, fun c hc => (hset c hc).2⟩
  | stopped running =>
    refine Tended.close ⟨fun c hc => ?_, fun c hc => ?_⟩
    · obtain ⟨c', hc', rfl⟩ := List.mem_map.mp hc
      exact (h.conns c' hc').onStop (hstands c' hc')
    · obtain ⟨c', _, rfl⟩ := List.mem_map.mp hc
      exact c'.onStop_stopRan
  | handleClosed pending => exact Tended.close ⟨h.conns, h.stopRan⟩

/-- Behind the stop the protocol stands whatever comes. -/
theorem Tended.stands {w w' : UvWorker} (h : w.Tended) (hstop : w.stopRan = true) {e : WorkerEvent}
    {r : Unit} (hs : w.step uv passes e = some (w', r)) : w.Stands e := by
  cases moves_of_step hs with
  | opened running _ _ _ _ => cases running.symm.trans hstop
  | @called i e c d conn step noStop noClose =>
    intro c' hc'
    cases conn.symm.trans hc'
    have hmem := List.mem_of_getElem? conn
    have hread := (h.conns c hmem).silenced ((h.stopRan c hmem).trans hstop)
    cases UvConnection.moves_of_step step with
    | ended reading moved => cases hread.symm.trans reading
    | stopped first => exact absurd rfl noStop
    | read reading step => exact trivial
    | executed sent rc => exact trivial
    | wrote pending status => exact trivial
    | closed last first => exact trivial
  | closed conn step => exact fun _ _ => trivial
  | stopped running => cases running.symm.trans hstop
  | handleClosed pending => exact trivial

/-- What is still to come of a worker that was stopped. -/
def load (w : UvWorker) : Nat := (w.conns.map UvConnection.load).sum + w.handles

@[simp] theorem closeEventLoppIfPossible_load (w : UvWorker) :
    w.closeEventLoppIfPossible.load = w.load := by
  obtain ⟨_, hw⟩ | ⟨_, hw⟩ := w.closeEventLoppIfPossible_cases
  · rw [hw]
    rfl
  · rw [hw]

@[simp] theorem closeEventLoppIfPossible_stopRan (w : UvWorker) :
    w.closeEventLoppIfPossible.stopRan = w.stopRan := by
  obtain ⟨_, hw⟩ | ⟨_, hw⟩ := w.closeEventLoppIfPossible_cases <;> rw [hw]

/-- Every event behind the stop brings the end of the loop nearer. -/
theorem Tended.load_lt {w w' : UvWorker} (h : w.Tended) (hstop : w.stopRan = true)
    {e : WorkerEvent} {r : Unit} (hs : w.step uv passes e = some (w', r)) :
    w'.stopRan = true ∧ w'.load < w.load := by
  cases moves_of_step hs with
  | opened running _ _ _ _ => cases running.symm.trans hstop
  | @called i e c d conn step noStop noClose =>
    have hmem := List.mem_of_getElem? conn
    have hless := (h.conns c hmem).load_lt ((h.stopRan c hmem).trans hstop) step
    have hsum := PartialRun.sum_map_set UvConnection.load conn d
    refine ⟨hstop, ?_⟩
    simp only [load]
    omega
  | @closed i c d conn step =>
    have hmem := List.mem_of_getElem? conn
    have hless := (h.conns c hmem).load_lt ((h.stopRan c hmem).trans hstop) step
    have hsum := PartialRun.sum_map_set UvConnection.load conn d
    refine ⟨by simpa using hstop, ?_⟩
    rw [closeEventLoppIfPossible_load]
    simp only [tasksDone] at hless
    simp only [load]
    omega
  | stopped running => cases running.symm.trans hstop
  | handleClosed pending =>
    refine ⟨by simpa using hstop, ?_⟩
    rw [closeEventLoppIfPossible_load]
    simp only [load]
    omega

end UvWorker

namespace UvService

variable {uv : Libuv} {passes : Nat}

theorem worker_of_step {v v' : UvService} {e : WorkerEvent} {r : Unit}
    (h : v.step uv passes e = some (v', r)) : v.worker.step uv passes e = some (v'.worker, ()) := by
  obtain ⟨⟨w, _⟩, hw, h⟩ := Option.bind_eq_some_iff.mp h
  have hworker : v'.worker = w := by
    dsimp only at h
    split at h
    next =>
      obtain ⟨c, _, h⟩ := Option.bind_eq_some_iff.mp h
      obtain ⟨d, _, h⟩ := Option.bind_eq_some_iff.mp h
      obtain ⟨v'', hserved, h⟩ := Option.bind_eq_some_iff.mp h
      cases h
      obtain ⟨_, _, h⟩ := Option.bind_eq_some_iff.mp hserved
      cases h
      rfl
    next =>
      split at h
      next =>
        split at h
        next =>
          cases h
          rfl
        next => cases h
      next => cases h
    next =>
      cases h
      rfl
  rw [hworker]
  exact hw

/-- One result of a connection waits for each async it has sent. -/
def Waits (v : UvService) : Prop :=
  ∀ i c, v.worker.conns[i]? = some c → (part v.results i).length = c.asyncs

theorem asyncs_of_step {c d : UvConnection} {e : Callback} {r : Unit}
    (hread : ∀ data, e ≠ .readData data) (hdone : ∀ rc, e ≠ .executionDone rc)
    (hs : c.step uv passes e = some (d, r)) : d.asyncs = c.asyncs := by
  cases UvConnection.moves_of_step hs with
  | read reading step => exact absurd rfl (hread _)
  | ended reading moved => rfl
  | executed sent rc => exact absurd rfl (hdone rc)
  | wrote pending status => exact c.onWriteDone_asyncs
  | stopped first => exact c.onStop_asyncs
  | @closed callback last first => cases callback <;> rfl

theorem waits_set {conns : List UvConnection} {results : List (Nat × Bytes)} {i : Nat}
    {c d : UvConnection} (hc : conns[i]? = some c) (hi : (part results i).length = d.asyncs)
    (hother : ∀ j c', j ≠ i → conns[j]? = some c' → (part results j).length = c'.asyncs) :
    ∀ j c', (conns.set i d)[j]? = some c' → (part results j).length = c'.asyncs := by
  intro j c' hc'
  by_cases hj : i = j
  · subst hj
    rw [List.getElem?_set_self (List.getElem?_eq_some_iff.mp hc).1] at hc'
    cases hc'
    exact hi
  · rw [List.getElem?_set_ne hj] at hc'
    exact hother j c' (Ne.symm hj) hc'

/-- Events that neither execute nor end an execution leave the results alone. -/
theorem Waits.other {v : UvService} (h : v.Waits)
    (hnew : part v.results v.worker.conns.length = []) {w : UvWorker} {e : WorkerEvent}
    (moved : v.worker.step uv passes e = some (w, ()))
    (noRead : ∀ i data, e ≠ .callback i (.readData data))
    (noDone : ∀ i rc, e ≠ .callback i (.executionDone rc)) : Waits { v with worker := w } := by
  unfold Waits
  dsimp only
  cases UvWorker.moves_of_step moved with
  | opened running memory negative accept readStart =>
    intro i c hc
    dsimp only at hc
    by_cases hlt : i < v.worker.conns.length
    · rw [List.getElem?_append_left hlt] at hc
      exact h i c hc
    · rw [List.getElem?_append_right (by omega)] at hc
      have hi : i = v.worker.conns.length := by
        have := (List.getElem?_eq_some_iff.mp hc).1
        rw [List.length_singleton] at this
        omega
      rw [hi, hnew, List.mem_singleton.mp (List.mem_of_getElem? hc),
        UvConnection.onConnectionOpen_asyncs]
      rfl
  | called conn step noStop noClose =>
    refine waits_set conn ?_ fun j c' _ hc' => h j c' hc'
    rw [h _ _ conn, asyncs_of_step (fun data he => noRead _ data (by rw [he]))
      (fun rc he => noDone _ rc (by rw [he])) step]
  | closed conn step =>
    rw [UvWorker.closeEventLoppIfPossible_conns]
    refine waits_set conn ?_ fun j c' _ hc' => h j c' hc'
    rw [h _ _ conn, asyncs_of_step (by simp) (by simp) step]
  | stopped running =>
    intro i c hc
    simp only [UvWorker.onStop, UvWorker.closeEventLoppIfPossible_conns,
      List.getElem?_map] at hc
    obtain ⟨c', hc', rfl⟩ := Option.map_eq_some_iff.mp hc
    rw [h i c' hc', c'.onStop_asyncs]
  | handleClosed pending =>
    rw [UvWorker.closeEventLoppIfPossible_conns]
    exact h

theorem Waits.step {v v' : UvService} (h : v.Waits)
    (hnew : part v.results v.worker.conns.length = []) {e : WorkerEvent} {r : Unit}
    (hs : v.step uv passes e = some (v', r)) : v'.Waits := by
  cases moves_of_step hs with
  | @read w i data c d s outputs conn step conns runs =>
    unfold Waits
    dsimp only
    rw [conns]
    refine waits_set conn ?_ fun j c' hj hc' => ?_
    · have hlength := congrArg List.length (PartialRun.run_calls runs)
      rw [List.length_map, List.length_drop] at hlength
      rw [part_append, List.length_append, part_tagged_self, List.length_map, hlength, h i c conn]
      cases UvConnection.moves_of_step step with
      | read reading step => rfl
    · rw [part_append, part_tagged_of_ne hj.symm, List.append_nil]
      exact h j c' hc'
  | @done w i rc c d output rest conn step conns first =>
    unfold Waits
    dsimp only
    rw [conns]
    refine waits_set conn ?_ fun j c' hj hc' => ?_
    · have hlength := h i c conn
      rw [first, part_cons_self, List.length_cons] at hlength
      cases UvConnection.moves_of_step step with
      | executed sent rc =>
        dsimp only
        omega
    · have hlength := h j c' hc'
      rw [first, part_cons_of_ne hj.symm] at hlength
      exact hlength
  | other moved noRead noDone => exact h.other hnew moved noRead noDone

theorem Reach.waits {m : Int32} {history : List (WorkerEvent × Unit)} {v : UvService}
    (reach : Reach uv passes m history v) : v.Waits := by
  refine PartialRun.Reach.invariant_along (I := Waits) reach ?_ ?_
  · intro i c hc
    simp [started, UvWorker.started] at hc
  · intro before s e t r reach hwaits hs
    refine hwaits.step ?_ hs
    obtain ⟨order, hserves⟩ := Reach.serves reach
    have hnone := hserves.results s.worker.conns.length
    rw [(hserves.known _ (Nat.le_refl _)).1, (hserves.known _ (Nat.le_refl _)).2] at hnone
    exact hnone

/-- Everything the stop waits for has happened: every connection is deleted with
nothing owed to it, and the result of every command that was executed on the worker's
own storage went to `uv_write`. -/
structure Drained (m : Int32) (v : UvService) : Prop where
  deleted : ∀ c ∈ v.worker.conns, c.deleted = true ∧ c.asyncs = 0 ∧ c.writes = 0
  alive : v.worker.alive = []
  handles : v.worker.handles = 0
  answered : ∃ order : List (Nat × (Command × Bytes) × Bytes),
    PartialRun.Reach Store.serve (Store.fresh m) (order.map Prod.snd) v.store ∧
    v.Ordered order ∧ ∀ i c, v.worker.conns[i]? = some c →
      Sent.results (part v.written i) = (part order i).map fun e => taskResult e.2

/-- A callback of a connection that does not execute and is not the end of an
execution is taken by the service. -/
theorem step_callback {v : UvService} (hrunning : ¬ v.worker.Aborted) {i : Nat}
    {c d : UvConnection} {e : Callback} (hc : v.worker.conns[i]? = some c) (hs : c.step uv passes e = some (d, ()))
    (he : e = .closed ∨ ∃ status, e = .writeDone status) :
    v.step uv passes (.callback i e) ≠ none := by
  rw [step, UvWorker.step_of_onEvent hrunning]
  rcases he with rfl | ⟨status, rfl⟩ <;> simp [UvWorker.onEvent, UvWorker.onCallback, hc, hs]

theorem results_of_halted {v : UvService} (hw : v.worker.Tended) (hwaits : v.Waits)
    (hknown : ∀ i, v.worker.conns.length ≤ i → part v.results i = [])
    (hend : ∀ e, v.step uv passes e = none) : v.results = [] := by
  cases hresults : v.results with
  | nil => rfl
  | cons first rest =>
    obtain ⟨i, output⟩ := first
    have hlt : i < v.worker.conns.length := by
      by_contra hge
      have hnone := hknown i (by omega)
      rw [hresults, part_cons_self] at hnone
      cases hnone
    have hc := List.getElem?_eq_getElem hlt
    generalize v.worker.conns[i] = c at hc
    have htended := hw.conns c (List.mem_of_getElem? hc)
    have hasyncs := hwaits i c hc
    rw [hresults, part_cons_self, List.length_cons] at hasyncs
    have hlive : c.deleted ≠ true := fun hd => by
      have := (htended.orderly.closedProperly.2.2 hd).1
      omega
    have hstep : c.step uv passes (.executionDone 0) =
        some ({ c with asyncs := c.asyncs - 1, writes := c.writes + 1 }, ()) := by
      rw [UvConnection.step_of_onCallback htended.orderly.not_closedTwice]
      simp only [UvConnection.onCallback]
      rw [if_pos ⟨by omega, hlive⟩]
      rfl
    have hnone := hend (.callback i (.executionDone 0))
    rw [step, UvWorker.step_of_onEvent hw.not_aborted] at hnone
    simp [UvWorker.onEvent, UvWorker.onCallback, hc, hstep, hresults] at hnone

/-- Where nothing can happen any more behind the stop, it is complete. -/
theorem drained_of_halted {m : Int32} {history : List (WorkerEvent × Unit)} {v : UvService}
    (reach : Reach uv passes m history v) (hw : v.worker.Tended) (hstop : v.worker.stopRan = true)
    (hend : ∀ e, v.step uv passes e = none) : v.Drained m := by
  obtain ⟨order, hserves⟩ := Reach.serves reach
  have hwaits := Reach.waits reach
  have hresults : v.results = [] := by
    refine results_of_halted hw hwaits (fun i hi => ?_) hend
    have hnone := hserves.results i
    rw [(hserves.known i hi).1, (hserves.known i hi).2] at hnone
    exact hnone
  have hdeleted : ∀ c ∈ v.worker.conns, c.deleted = true ∧ c.asyncs = 0 ∧ c.writes = 0 := by
    intro c hmem
    obtain ⟨i, hc⟩ := List.mem_iff_getElem?.mp hmem
    have htended := hw.conns c hmem
    have hasyncs : c.asyncs = 0 := by
      rw [← hwaits i c hc, hresults]
      rfl
    have hwrites : c.writes = 0 := by
      by_contra hpending
      have hlive : c.deleted ≠ true := fun hd =>
        hpending (htended.orderly.closedProperly.2.2 hd).2
      have hstep : c.step uv passes (.writeDone 0) = some (c.onWriteDone, ()) := by
        rw [UvConnection.step_of_onCallback htended.orderly.not_closedTwice]
        exact if_pos ⟨Nat.pos_of_ne_zero hpending, hlive⟩
      exact step_callback hw.not_aborted hc hstep (Or.inr ⟨0, rfl⟩) (hend _)
    have hclosed : c.step uv passes .closed = none := by
      cases hstep : c.step uv passes .closed with
      | none => rfl
      | some r => exact absurd (hend _) (step_callback hw.not_aborted hc hstep (Or.inl rfl))
    have hgone := htended.deleted_of_idle ((hw.stopRan c hmem).trans hstop) hasyncs hwrites hclosed
    exact ⟨hgone, hasyncs, hwrites⟩
  refine ⟨hdeleted, ?_, ?_, order, hserves.legal, hserves.ordered, fun i c hc => ?_⟩
  · refine List.eq_nil_iff_forall_not_mem.mpr fun i hi => ?_
    obtain ⟨c, hc, halive⟩ := UvWorker.mem_alive.mp hi
    have hmem := List.mem_of_getElem? hc
    have hgone := (hdeleted c hmem).1
    rw [(hw.conns c hmem).alive, ← (hw.conns c hmem).deleted, hgone] at halive
    cases halive
  · have hnone := hend .handleClosed
    by_contra hpending
    rw [step, UvWorker.step_of_onEvent hw.not_aborted] at hnone
    simp [UvWorker.onEvent, hpending] at hnone
  · rw [← hserves.results i, hresults, part_nil, List.append_nil]

/-- All callbacks but the last are made on a connection that is not deleted, and
leave it so. -/
theorem not_deleted_of_step {c d : UvConnection} {e : Callback} {r : Unit} (hno : e ≠ .stop)
    (hopen : e ≠ .closed) (hs : c.step uv passes e = some (d, r)) :
    c.deleted = false ∧ d.deleted = c.deleted := by
  have hguard : c.deleted = false := by
    obtain ⟨_, hs⟩ := UvConnection.onCallback_of_step hs
    rw [Bool.eq_false_iff]
    intro hdeleted
    cases e with
    | readData data => simp [UvConnection.onCallback, hdeleted] at hs
    | readFailed nread => simp [UvConnection.onCallback, hdeleted] at hs
    | executionDone rc => simp [UvConnection.onCallback, hdeleted] at hs
    | writeDone status => simp [UvConnection.onCallback, hdeleted] at hs
    | stop => exact hno rfl
    | closed => exact hopen rfl
  refine ⟨hguard, ?_⟩
  cases UvConnection.moves_of_step hs with
  | read reading step => rfl
  | ended reading moved => rfl
  | executed sent rc => rfl
  | wrote pending status => exact c.onWriteDone_deleted
  | stopped first => exact absurd rfl hno
  | closed last first => exact absurd rfl hopen

/-- The last event behind a stop is the call of `uv_loop_close` that finds nothing
left. -/
theorem Drained.last {m : Int32} {v v' : UvService} (h : v'.Drained m)
    (hstop : v'.worker.stopRan = true) {e : WorkerEvent} {r : Unit}
    (hs : v.step uv passes e = some (v', r)) :
    v'.worker.loopCloses = v.worker.loopCloses + 1 := by
  have hworker := worker_of_step hs
  have hdeleted := h.deleted
  have halive := h.alive
  have hhandles := h.handles
  generalize v'.worker = w' at hworker hstop hdeleted halive hhandles
  cases UvWorker.moves_of_step hworker with
  | opened running _ _ _ _ => cases running.symm.trans hstop
  | @called i e c d conn step noStop noClose =>
    have hlive := not_deleted_of_step noStop noClose step
    have hgone := (hdeleted d (List.mem_set (List.getElem?_eq_some_iff.mp conn).1 _)).1
    rw [hlive.2, hlive.1] at hgone
    cases hgone
  | closed conn step =>
    rcases UvWorker.closeEventLoppIfPossible_cases
      { v.worker with conns := v.worker.conns.set _ _ } with ⟨_, hclose⟩ | ⟨hsome, hclose⟩
    · rw [hclose]
    · rw [hclose] at halive
      exact absurd halive hsome
  | stopped running =>
    have hmore : v.worker.onStop.handles = v.worker.handles + 3 := by
      unfold UvWorker.onStop UvWorker.closeEventLoppIfPossible
      split <;> rfl
    omega
  | handleClosed pending =>
    rcases UvWorker.closeEventLoppIfPossible_cases
      { v.worker with handles := v.worker.handles - 1 } with ⟨_, hclose⟩ | ⟨hsome, hclose⟩
    · rw [hclose]
    · rw [hclose] at halive
      exact absurd halive hsome

/-- Behind the stop: the worker is tended, the protocol stands all events, and each
of them brings the end nearer. -/
theorem stop_step (works : ∀ log, uv.asyncInit log = 0) {v v' : UvService} {e : WorkerEvent}
    {r : Unit} (h : v.worker.Tended ∧ v.worker.stopRan = true)
    (hs : v.step uv passes e = some (v', r)) :
    (v'.worker.Tended ∧ v'.worker.stopRan = true) ∧ v'.worker.load < v.worker.load := by
  have hworker := worker_of_step hs
  obtain ⟨hstop, hless⟩ := h.1.load_lt h.2 hworker
  exact ⟨⟨h.1.step works (h.1.stands h.2 hworker) hworker, hstop⟩, hless⟩

end UvService

/-- `OnStop` in any state of the service, after a run that the protocol stood: the
loop has only so many events left; some of them can come until nothing is left; and
then every connection is deleted with nothing owed to it, the result of every command
that was executed was handed to `uv_write`, in order, and the last event was a call of
`uv_loop_close` with no connection and no handle left. -/
theorem uv_stop_drains {uv : Libuv} (works : ∀ log, uv.asyncInit log = 0) {passes : Nat} {m : Int32}
    {history : List (WorkerEvent × Unit)} {v : UvService}
    (reach : UvService.Reach uv passes m history v)
    (stands : ∀ before u e, UvService.Reach uv passes m before u →
      before.map Prod.fst ++ [e] <+: history.map Prod.fst → u.worker.Stands e)
    (stopped : v.worker.stopRan = true) :
    (∀ events u later, PartialRun.run (UvService.step uv passes) v events = some (u, later) →
      events.length ≤ v.worker.load) ∧
    (∃ events u later, PartialRun.run (UvService.step uv passes) v events = some (u, later) ∧
      ∀ e, u.step uv passes e = none) ∧
    ∀ events u later, PartialRun.run (UvService.step uv passes) v events = some (u, later) →
      (∀ e, u.step uv passes e = none) → u.Drained m ∧
        ∃ before t e, history ++ later = before ++ [(e, ())] ∧
          UvService.Reach uv passes m before t ∧
          u.worker.loopCloses = t.worker.loopCloses + 1 := by
  have htended : ∀ before u, UvService.Reach uv passes m before u →
      before.map Prod.fst <+: history.map Prod.fst → u.worker.Tended := by
    intro before u hreach hpre
    refine hreach.invariant_within (I := fun _ u => u.worker.Tended) hpre
      UvWorker.started_tended ?_
    intro front s e t r hfront hnext hs hstep
    exact hs.step works (stands front s e hfront hnext) (UvService.worker_of_step hstep)
  have hstart := And.intro (htended history v reach (List.prefix_refl _)) stopped
  have hkeep : ∀ s e t r, s.worker.Tended ∧ s.worker.stopRan = true →
      UvService.step uv passes s e = some (t, r) →
      (t.worker.Tended ∧ t.worker.stopRan = true) ∧ t.worker.load < s.worker.load :=
    fun s e t r => UvService.stop_step works
  have hrest : ∀ events u later,
      PartialRun.run (UvService.step uv passes) v events = some (u, later) →
      (u.worker.Tended ∧ u.worker.stopRan = true) ∧
        events.length + u.worker.load ≤ v.worker.load :=
    fun events u later hrun =>
      PartialRun.run_length_le (I := fun v => v.worker.Tended ∧ v.worker.stopRan = true)
        (fun v => v.worker.load) hkeep hstart hrun
  refine ⟨fun events u later hrun => ?_, ?_, fun events u later hrun hend => ?_⟩
  · have hle := (hrest events u later hrun).2
    omega
  · exact PartialRun.exists_run_to_end (I := fun v => v.worker.Tended ∧ v.worker.stopRan = true)
      (fun v => v.worker.load) hkeep hstart
  · obtain ⟨⟨htended', hstop⟩, _⟩ := hrest events u later hrun
    have hreach := PartialRun.Reach.of_run reach hrun
    have hdrained := UvService.drained_of_halted hreach htended' hstop hend
    refine ⟨hdrained, ?_⟩
    generalize history ++ later = all at hreach
    cases hreach with
    | start => cases hstop
    | next hbefore hs => exact ⟨_, _, _, rfl, hbefore, hdrained.last hstop hs⟩

def stopWhileRunning : List WorkerEvent :=
  [.connectionOpen (List.replicate connectionInputBufferSize 0) false 0 0,
    .callback 0 (.readData (text "get a\r\n")), .stop]

/-- The worker is stopped while the result of a command waits. -/
theorem uv_stop_drains_waiting :
    ∃ history v, UvService.Reach .working 8 100 history v ∧
      history.map Prod.fst = stopWhileRunning ∧ v.results = [(0, text "END\r\n")] ∧
      (∀ events u later,
        PartialRun.run (UvService.step .working 8) v events = some (u, later) → events.length ≤ 7) ∧
      (∃ events u later, PartialRun.run (UvService.step .working 8) v events = some (u, later) ∧
        ∀ e, u.step .working 8 e = none) ∧
      ∀ events u later, PartialRun.run (UvService.step .working 8) v events = some (u, later) →
        (∀ e, u.step .working 8 e = none) → u.Drained 100 ∧
          ∃ before t e, history ++ later = before ++ [(e, ())] ∧
            UvService.Reach .working 8 100 before t ∧
            u.worker.loopCloses = t.worker.loopCloses + 1 := by
  obtain ⟨history, v, reach, hcalls, hresults, hstop, hload⟩ := PartialRun.reach_of_check
    (UvService.step .working 8) (UvService.started 100) stopWhileRunning
    (fun v => v.results = [(0, text "END\r\n")] ∧ v.worker.stopRan = true ∧ v.worker.load = 7)
    (by decide)
  have hstands : ∀ before u e, UvService.Reach .working 8 100 before u →
      before.map Prod.fst ++ [e] <+: stopWhileRunning → u.worker.Stands e :=
    PartialRun.holds_of_each (C := fun (v : UvService) e => v.worker.Stands e) (by decide)
  rw [← hcalls] at hstands
  have hdrains := uv_stop_drains (fun _ => rfl) reach hstands hstop
  rw [hload] at hdrains
  exact ⟨history, v, reach, hcalls, hresults, hdrains⟩

end Afina
