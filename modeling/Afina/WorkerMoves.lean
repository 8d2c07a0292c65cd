import Afina.WorkerTasks

namespace Afina

namespace UvConnection

variable {uv : Libuv} {passes : Nat}

/-- What one callback can do. -/
inductive Moves (uv : Libuv) (passes : Nat) (c : UvConnection) : Callback → UvConnection → Prop
  | read (reading : c.reading = true) {data : Bytes} {s : Session}
      (step : c.session.step uv passes data = some (s, ())) :
      Moves uv passes c (.readData data) { c with
        session := s
        asyncs := c.asyncs + (s.executed.length - c.session.executed.length)
        writes := c.writes + (s.clientErrors.length - c.session.clientErrors.length) }
  | ended (reading : c.reading = true) {nread : Int} {conn : Connection}
      (moved : c.session.conn.onAllocate = some conn) :
      Moves uv passes c (.readFailed nread) { c with
        session := (⟨conn, c.session.log⟩ : Session).record .uvClose
        closes := c.closes ++ [.onConnectionClosed]
        reading := false }
  | executed (sent : 0 < c.asyncs) (rc : Int32) :
      Moves uv passes c (.executionDone rc)
        { c with asyncs := c.asyncs - 1, writes := c.writes + 1 }
  | wrote (pending : 0 < c.writes) (status : Int32) :
      Moves uv passes c (.writeDone status) c.onWriteDone
  | stopped (first : c.stopRan = false) : Moves uv passes c .stop c.onStop
  | closed {callback : CloseCallback} (last : c.closes.getLast? = some callback)
      (first : c.closeRan = false) :
      Moves uv passes c .closed ({ c with closeRan := true }.onClosed callback)

theorem onCallback_of_step {c d : UvConnection} {e : Callback} {r : Unit}
    (h : c.step uv passes e = some (d, r)) :
    ¬ c.ClosedTwice ∧ c.onCallback uv passes e = some (d, r) :=
  Option.ite_none_left_eq_some.mp h

theorem step_of_onCallback {c : UvConnection} {e : Callback} (hrunning : ¬ c.ClosedTwice) :
    c.step uv passes e = c.onCallback uv passes e :=
  if_neg hrunning

/-- The close callback runs if it has not yet, and is the one passed to `uv_close`. -/
theorem step_closed {c : UvConnection} (hrunning : ¬ c.ClosedTwice) {callback : CloseCallback}
    (hlast : c.closes.getLast? = some callback) (hfirst : c.closeRan = false) :
    c.step uv passes .closed = some ({ c with closeRan := true }.onClosed callback, ()) := by
  rw [step_of_onCallback hrunning]
  simp [onCallback, hlast, hfirst]

theorem moves_of_step {c d : UvConnection} {e : Callback} {r : Unit}
    (h : c.step uv passes e = some (d, r)) : Moves uv passes c e d := by
  obtain ⟨_, h⟩ := onCallback_of_step h
  cases e with
  | readData data =>
    simp only [onCallback] at h
    split at h
    next hreading =>
      obtain ⟨d', hd, he⟩ := Option.map_eq_some_iff.mp h
      cases he
      obtain ⟨⟨s, _⟩, hs, hd⟩ := Option.bind_eq_some_iff.mp hd
      cases Option.some.inj hd
      exact .read hreading.1 hs
    next => cases h
  | readFailed nread =>
    simp only [onCallback] at h
    split at h
    next hreading =>
      obtain ⟨d', hd, he⟩ := Option.map_eq_some_iff.mp h
      cases he
      obtain ⟨conn, hc, hd⟩ := Option.bind_eq_some_iff.mp hd
      simp only [Session.onRead, if_pos hreading.2.2] at hd
      cases Option.some.inj hd
      exact .ended hreading.1 hc
    next => cases h
  | executionDone rc =>
    simp only [onCallback] at h
    split at h
    next hsent =>
      obtain ⟨d', hd, he⟩ := Option.map_eq_some_iff.mp h
      cases he
      unfold onExecutionDone at hd
      split at hd
      next => cases hd
      next => cases Option.some.inj hd; exact .executed hsent.1 rc
    next => cases h
  | writeDone status =>
    simp only [onCallback] at h
    split at h
    next hpending => cases Option.some.inj h; exact .wrote hpending.1 status
    next => cases h
  | stop =>
    simp only [onCallback] at h
    split at h
    next => cases h
    next hfirst => cases Option.some.inj h; exact .stopped (Bool.eq_false_iff.mpr hfirst)
  | closed =>
    simp only [onCallback] at h
    split at h
    next => cases h
    next callback hlast =>
      split at h
      next => cases h
      next hfirst => cases Option.some.inj h; exact .closed hlast (Bool.eq_false_iff.mpr hfirst)

/-- A write that is done changes the count, and closes the handle of a closed
connection in which nothing runs any more. -/
theorem onWriteDone_cases (c : UvConnection) :
    ∃ d : UvConnection, d = { c with
        writes := c.writes - 1
        session := { c.session with conn := { c.session.conn with
          runningTasks := decrement c.session.conn.runningTasks } } } ∧
      ((c.session.conn.state = .sClosed ∧ d.session.conn.runningTasks = 0 ∧
          c.onWriteDone = d.uvClose .onConnectionClosed) ∨
        (¬ (c.session.conn.state = .sClosed ∧ d.session.conn.runningTasks = 0) ∧
          c.onWriteDone = d)) := by
  refine ⟨_, rfl, ?_⟩
  unfold onWriteDone
  dsimp only
  split
  next h => exact Or.inl ⟨h.1, h.2, rfl⟩
  next h => exact Or.inr ⟨h, rfl⟩

theorem onStop_cases (c : UvConnection) :
    (c.alive = false ∧ c.onStop = { c with stopRan := true }) ∨
      ∃ d : UvConnection, d = { c with
          stopRan := true
          session := { c.session with conn := { c.session.conn with state := .sClosed } }
          reading := false } ∧ c.alive = true ∧
        ((c.session.conn.runningTasks = 0 ∧ c.onStop = d.uvClose .onConnectionClosed) ∨
          (c.session.conn.runningTasks ≠ 0 ∧ c.onStop = d)) := by
  unfold onStop
  dsimp only
  split
  next halive =>
    refine Or.inr ⟨_, rfl, halive, ?_⟩
    split
    next h => exact Or.inl ⟨h, rfl⟩
    next h => exact Or.inr ⟨h, rfl⟩
  next halive => exact Or.inl ⟨Bool.eq_false_iff.mpr halive, rfl⟩

/-- Each callback that libuv owes is for a running task, so the count never goes
below zero. -/
def Owes (c : UvConnection) : Prop := c.asyncs + c.writes ≤ c.session.conn.runningTasks

theorem onConnectionOpen_owes (memory : Bytes) (negative : Bool) (accept readStart : Int32) :
    (onConnectionOpen memory negative accept readStart).Owes := by
  unfold onConnectionOpen Owes
  dsimp only
  split
  next => exact Nat.le_refl 0
  next => split <;> exact Nat.le_refl 0

theorem Owes.onWriteDone {c : UvConnection} (h : c.Owes) (hpending : 0 < c.writes) :
    c.onWriteDone.Owes ∧
      c.onWriteDone.session.conn.runningTasks + 1 = c.session.conn.runningTasks := by
  unfold Owes at h
  have hrunning : c.session.conn.runningTasks ≠ 0 := by omega
  have hless : decrement c.session.conn.runningTasks + 1 = c.session.conn.runningTasks := by
    rw [decrement, if_neg hrunning]
    omega
  have howes : c.asyncs + (c.writes - 1) ≤ decrement c.session.conn.runningTasks := by omega
  obtain ⟨d, rfl, ⟨_, _, hd⟩ | ⟨_, hd⟩⟩ := onWriteDone_cases c
  · rw [hd]
    exact ⟨howes, hless⟩
  · rw [hd]
    exact ⟨howes, hless⟩

theorem Owes.step {c d : UvConnection} {e : Callback} {r : Unit} (h : c.Owes)
    (hs : c.step uv passes e = some (d, r)) : d.Owes := by
  cases moves_of_step hs with
  | @read reading data s step =>
    obtain ⟨extra, _, howed⟩ := Session.step_owed step
    have hexec := howed.executed.length_le
    have herrors := howed.errors.length_le
    have hbalance := howed.balance
    unfold Session.tasks at hbalance
    unfold Owes at h ⊢
    dsimp only
    omega
  | @ended reading nread conn moved =>
    have hcount := Session.onAllocate_tasks moved
    show c.asyncs + c.writes ≤ conn.runningTasks
    rw [hcount]
    exact h
  | executed sent rc =>
    unfold Owes at h ⊢
    dsimp only
    omega
  | wrote pending status => exact (h.onWriteDone pending).1
  | stopped first =>
    obtain ⟨_, hd⟩ | ⟨d, rfl, _, ⟨_, hd⟩ | ⟨_, hd⟩⟩ := onStop_cases c <;> rw [hd] <;> exact h
  | @closed callback last first => cases callback <;> exact h

end UvConnection

end Afina
