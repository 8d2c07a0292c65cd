import Afina.ConnectionLoop
import Afina.WorkerCore

namespace Afina

namespace Session

variable {uv : Libuv}

def tasks (s : Session) : Nat := s.executed.length + s.clientErrors.length

/-- From one session to a later one the count of running tasks has grown by the
tasks made, and by so much more. -/
structure Owed (s t : Session) (extra : Nat) : Prop where
  executed : s.executed <+: t.executed
  errors : s.clientErrors <+: t.clientErrors
  balance : t.conn.runningTasks + s.tasks = s.conn.runningTasks + t.tasks + extra

theorem Owed.trans {s t u : Session} {m n : Nat} (h : Owed s t m) (h' : Owed t u n) :
    Owed s u (m + n) := by
  refine ⟨h.executed.trans h'.executed, h.errors.trans h'.errors, ?_⟩
  have := h.balance
  have := h'.balance
  omega

theorem owed_same {s t : Session} (hlog : t.executed = s.executed)
    (herrors : t.clientErrors = s.clientErrors)
    (htasks : t.conn.runningTasks = s.conn.runningTasks) : Owed s t 0 := by
  refine ⟨by rw [hlog], by rw [herrors], ?_⟩
  simp only [tasks, hlog, herrors, htasks, Nat.add_zero]

/-- No command is executed and no error is replied between two sessions. -/
structure Quiet (s t : Session) : Prop where
  executed : t.executed = s.executed
  errors : t.clientErrors = s.clientErrors
  count : t.conn.runningTasks = s.conn.runningTasks

theorem Quiet.owed {s t : Session} (h : Quiet s t) : Owed s t 0 :=
  owed_same h.executed h.errors h.count

theorem quiet_consumed (s : Session) (c : Connection) (start count : Nat)
    (h : c.runningTasks = s.conn.runningTasks) :
    Quiet s ⟨c, s.log ++ [.consumed start count]⟩ :=
  ⟨by simp [Session.executed], by simp [clientErrors], h⟩

theorem recvHeader_quiet {s : Session} {e : Ended} (h : s.recvHeader = some e) :
    Quiet s e.session := by
  rcases recvHeader_cases h with ⟨p, what, rfl⟩ | ⟨p, n, c, _, he, _, htasks, _⟩
  · exact ⟨rfl, rfl, rfl⟩
  · rw [he]
    exact quiet_consumed _ _ _ _ htasks

theorem recvTrailer_quiet {s : Session} {c : UInt8} {what : Bytes} {next : ConnectionState}
    {e : Ended} (h : s.recvTrailer c what next = some e) : Quiet s e.session := by
  obtain ⟨d, _, h⟩ := Option.bind_eq_some_iff.mp h
  split at h
  next => cases Option.some.inj h; exact ⟨rfl, rfl, rfl⟩
  next => cases Option.some.inj h; exact quiet_consumed _ _ _ _ rfl

theorem branch_quiet {s : Session} {e : Ended} (h : s.branch = some e) : Quiet s e.session := by
  unfold branch at h
  split at h
  next => exact recvHeader_quiet h
  next => cases Option.some.inj h; exact quiet_consumed _ _ _ _ rfl
  next => exact recvTrailer_quiet h
  next => exact recvTrailer_quiet h
  next => cases Option.some.inj h; exact ⟨rfl, rfl, rfl⟩
  next => cases Option.some.inj h; exact ⟨rfl, rfl, rfl⟩

/-- The tasks an ending leaves unaccounted for: none, or the one whose async
could not be set up. -/
def Ended.Settled (s : Session) : Ended → Prop
  | .normally t => Owed s t 0
  | .threw t _ => ∃ extra ≤ 1, Owed s t extra

theorem execute_owed {s : Session} {e : Ended} (h : s.execute uv = some e) : e.Settled s := by
  unfold execute at h
  dsimp only at h
  split at h
  next =>
    cases Option.some.inj h
    refine ⟨1, Nat.le_refl 1, List.prefix_refl _, List.prefix_refl _, ?_⟩
    simp only [tasks, Session.executed, clientErrors]
    omega
  next =>
    obtain ⟨cmd, _, h⟩ := Option.bind_eq_some_iff.mp h
    cases Option.some.inj h
    refine ⟨?_, ?_, ?_⟩
    · simp [record, Session.executed]
    · simp [record, clientErrors]
    · simp [record, tasks, Session.executed, clientErrors]
      omega

theorem runCommand_owed {s : Session} {e : Ended} (h : s.runCommand uv = some e) :
    e.Settled s := by
  unfold runCommand at h
  split at h
  next =>
    obtain ⟨e', he, h⟩ := Option.bind_eq_some_iff.mp h
    have howed := execute_owed he
    cases e' with
    | normally t =>
      cases Option.some.inj h
      exact Owed.trans howed (owed_same (t := t.ready) rfl rfl rfl)
    | threw t what =>
      cases Option.some.inj h
      exact howed
  next =>
    cases Option.some.inj h
    exact owed_same rfl rfl rfl

theorem Ended.Settled.after {s t : Session} (h : Owed s t 0) {e : Ended} (he : e.Settled t) :
    e.Settled s := by
  cases e with
  | normally u => exact h.trans he
  | threw u what =>
    obtain ⟨extra, hle, howed⟩ := he
    exact ⟨extra, hle, by simpa using h.trans howed⟩

theorem pass_owed {s : Session} {e : Ended} (h : s.pass uv = some e) : e.Settled s := by
  obtain ⟨e', he, h⟩ := Option.bind_eq_some_iff.mp h
  have howed := (branch_quiet he).owed
  cases e' with
  | normally t => exact (runCommand_owed h).after howed
  | threw t what =>
    cases Option.some.inj h
    exact ⟨0, Nat.zero_le 1, howed⟩

theorem Iterates.owed {s t : Session} (h : Iterates uv s t) : Owed s t 0 := by
  induction h with
  | start => exact owed_same rfl rfl rfl
  | next _ _ hp ih => exact ih.trans (pass_owed hp)

theorem readLoop_owed {n : Nat} {s : Session} {e : Ended} (h : readLoop uv n s = .ended e) :
    e.Settled s := by
  obtain ⟨t, hiter, ⟨rfl, _⟩ | ⟨u, what, _, hp, rfl⟩⟩ := readLoop_iterates h
  · exact hiter.owed
  · exact (pass_owed hp).after hiter.owed

theorem fail_owed {s t : Session} {what : Bytes} (h : s.fail uv what = .ended (.normally t)) :
    Owed s t 0 := by
  unfold fail at h
  dsimp only at h
  split at h
  next => cases h
  next =>
    cases h
    refine ⟨?_, ?_, ?_⟩
    · simp [record, Session.executed]
    · simp [record, clientErrors]
    · simp [record, tasks, Session.executed, clientErrors]
      omega

theorem onAllocate_tasks {c d : Connection} (h : c.onAllocate = some d) :
    d.runningTasks = c.runningTasks := by
  rw [onAllocate_buffer h]

theorem arrived_same {s a : Session} {data : Bytes} (h : s.arrived data = some a) :
    a.log = s.log ∧ a.conn.runningTasks = s.conn.runningTasks ∧ a.conn.state = s.conn.state := by
  rw [arrived_buffer h]
  exact ⟨rfl, rfl, rfl⟩

theorem arrived_quiet {s a : Session} {data : Bytes} (h : s.arrived data = some a) :
    Quiet s a := by
  obtain ⟨hlog, hcount, _⟩ := arrived_same h
  exact ⟨by simp [Session.executed, hlog], by simp [clientErrors, hlog], hcount⟩

/-- A read raises the count of running tasks by one for each command it
executes and for the error reply, and by one more when `uv_async_init` fails. -/
theorem step_owed {s t : Session} {data : Bytes} {passes : Nat} {r : Unit}
    (h : step uv passes s data = some (t, r)) : ∃ extra ≤ 1, Owed s t extra := by
  obtain ⟨c, a, hc, ha, hend⟩ := step_cases h
  have hfirst := (arrived_quiet ha).owed
  rcases hend with ⟨_, rfl⟩ | ⟨_, e, hloop, rfl | ⟨u, what, rfl, hfail⟩⟩
  · have hcount := onAllocate_tasks hc
    exact ⟨0, Nat.zero_le 1, owed_same rfl rfl hcount⟩
  · exact ⟨0, Nat.zero_le 1, hfirst.trans (readLoop_owed hloop)⟩
  · obtain ⟨extra, hle, howed⟩ := readLoop_owed hloop
    have hall := (hfirst.trans howed).trans (fail_owed hfail)
    rw [Nat.zero_add] at hall
    exact ⟨extra, hle, hall⟩

theorem recvHeader_open {s m : Session} (h : s.recvHeader = some (.normally m))
    (hs : s.conn.state ≠ .sClosed) : m.conn.state ≠ .sClosed := by
  rcases recvHeader_cases h with ⟨p, what, he⟩ | ⟨p, n, c, _, rfl, _, _, hstate⟩
  · cases he
  · rcases hstate with hstate | hstate | hstate
    · rw [hstate]
      exact hs
    · simp [hstate]
    · simp [hstate]

theorem recvTrailer_open {s m : Session} {c : UInt8} {what : Bytes} {next : ConnectionState}
    (h : s.recvTrailer c what next = some (.normally m)) : m.conn.state = next := by
  obtain ⟨d, _, h⟩ := Option.bind_eq_some_iff.mp h
  split at h
  next => cases h
  next => cases h; rfl

theorem branch_open {s m : Session} (h : s.branch = some (.normally m))
    (hs : s.conn.state ≠ .sClosed) : m.conn.state ≠ .sClosed := by
  unfold branch at h
  split at h
  next => exact recvHeader_open h hs
  next =>
    cases h
    dsimp only
    split
    next => simp
    next => exact hs
  next => rw [recvTrailer_open h]; simp
  next => rw [recvTrailer_open h]; simp
  next => cases h; exact hs
  next hclosed => exact absurd hclosed hs

/-- A pass closes no connection and replies no error. -/
theorem pass_open {s : Session} {e : Ended} (h : s.pass uv = some e)
    (hs : s.conn.state ≠ .sClosed) :
    e.session.clientErrors = s.clientErrors ∧ ∀ t, e = .normally t → t.conn.state ≠ .sClosed := by
  obtain ⟨e', he, h⟩ := Option.bind_eq_some_iff.mp h
  have hquiet := (branch_quiet he).errors
  cases e' with
  | threw t what =>
    cases Option.some.inj h
    exact ⟨hquiet, fun _ h' => by cases h'⟩
  | normally m =>
    have hopen := branch_open he hs
    rw [← hquiet]
    dsimp only [Ended.session] at h ⊢
    by_cases hexec : m.conn.state = .sExecute
    · obtain ⟨e'', hrun, h⟩ := Option.bind_eq_some_iff.mp (by simpa [runCommand, hexec] using h)
      simp only [execute] at hrun
      split at hrun
      next =>
        cases Option.some.inj hrun
        cases Option.some.inj h
        exact ⟨rfl, fun _ h' => by cases h'⟩
      next =>
        obtain ⟨cmd, _, hrun⟩ := Option.bind_eq_some_iff.mp hrun
        cases Option.some.inj hrun
        cases Option.some.inj h
        refine ⟨by simp [ready, clientErrors, record], fun t h' => ?_⟩
        cases h'
        simp [ready]
    · rw [runCommand_other hexec] at h
      cases h
      exact ⟨rfl, fun t h' => by cases h'; exact hopen⟩

theorem Iterates.stays_open {s t : Session} (h : Iterates uv s t) (hs : s.conn.state ≠ .sClosed) :
    t.clientErrors = s.clientErrors ∧ t.conn.state ≠ .sClosed := by
  induction h with
  | start => exact ⟨rfl, hs⟩
  | next _ _ hp ih =>
    obtain ⟨herrors, hstate⟩ := pass_open hp ih.2
    exact ⟨herrors.trans ih.1, hstate _ rfl⟩

/-- A read replies an error exactly when it closes the connection, and then one. -/
theorem step_errors {s t : Session} {data : Bytes} {passes : Nat} {r : Unit}
    (h : step uv passes s data = some (t, r)) :
    (t.clientErrors = s.clientErrors ∧ (t.conn.state = .sClosed ↔ s.conn.state = .sClosed)) ∨
      (s.conn.state ≠ .sClosed ∧ t.conn.state = .sClosed ∧
        t.clientErrors.length = s.clientErrors.length + 1) := by
  obtain ⟨c, a, hc, ha, hend⟩ := step_cases h
  obtain ⟨hlog, _, hstate⟩ := arrived_same ha
  have hfirst := (arrived_quiet ha).errors
  rcases hend with ⟨hclosed, rfl⟩ | ⟨hopen, e, hloop, hlast⟩
  · have hsame := onAllocate_state hc
    refine Or.inl ⟨rfl, ?_⟩
    dsimp only
    rw [hsame]
  · rw [← hstate] at hopen
    obtain ⟨m, hm, ⟨rfl, _⟩ | ⟨v, what', _, hp, rfl⟩⟩ := readLoop_iterates hloop
    · obtain ⟨herrors, hm⟩ := hm.stays_open hopen
      rcases hlast with he | ⟨u, what, he, _⟩
      · cases he
        refine Or.inl ⟨herrors.trans hfirst, ?_⟩
        rw [← hstate]
        exact iff_of_false hm hopen
      · cases he
    · obtain ⟨herrors, hm⟩ := hm.stays_open hopen
      have hthrew := (pass_open hp hm).1
      rcases hlast with he | ⟨u, what, he, hfail⟩
      · cases he
      · cases he
        obtain ⟨hclosed, hreply⟩ := fail_normally hfail
        refine Or.inr ⟨hstate ▸ hopen, hclosed, ?_⟩
        have hone : t.clientErrors.length = v.clientErrors.length + 1 := by
          simp [clientErrors, hreply]
        rw [hone, ← hfirst, ← herrors, ← hthrew]
        rfl

end Session

end Afina
