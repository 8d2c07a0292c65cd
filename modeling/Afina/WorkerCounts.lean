import Afina.ConnectionPipeline
import Afina.WorkerMoves

namespace Afina

namespace Session

variable {uv : Libuv}

/-- In the loop that starts here, `uv_async_init` fails in a call of `Execute`. -/
def AsyncFails (uv : Libuv) (s : Session) : Prop := ∃ m, Calls uv s m ∧ uv.asyncInit m.log ≠ 0

/-- `Execute` has raised the count before the call that fails. -/
theorem pass_asyncFails {s m : Session} (hb : s.branch = some (.normally m))
    (hs : m.conn.state = .sExecute) (hf : uv.asyncInit m.log ≠ 0) :
    ∃ t what, s.pass uv = some (.threw t what) ∧ Owed s t 1 := by
  refine ⟨_, _, by rw [pass_of_branch hb]; simp [runCommand, hs, execute, hf]; exact ⟨rfl, rfl⟩, ?_⟩
  have howed : Owed s m 0 := (branch_quiet hb).owed
  refine ⟨howed.executed, howed.errors, ?_⟩
  have hbalance := howed.balance
  simp only [tasks, Session.executed, clientErrors] at hbalance ⊢
  omega

theorem pass_owed_exact {s : Session} {e : Ended} (h : s.pass uv = some e)
    (hf : ∀ m, s.branch = some (.normally m) → m.conn.state = .sExecute → uv.asyncInit m.log = 0) :
    Owed s e.session 0 := by
  obtain ⟨e', he, h⟩ := Option.bind_eq_some_iff.mp h
  have howed := (branch_quiet he).owed
  cases e' with
  | threw t what =>
    cases Option.some.inj h
    exact howed
  | normally m =>
    refine howed.trans (n := 0) ?_
    dsimp only at h
    by_cases hs : m.conn.state = .sExecute
    · have hsettled := runCommand_owed h
      cases e with
      | normally t => exact hsettled
      | threw t what =>
        have hzero := hf m he hs
        obtain ⟨e'', hexec, hend⟩ := Option.bind_eq_some_iff.mp (by simpa [runCommand, hs] using h)
        simp only [execute, hzero, ne_eq, not_true, if_false] at hexec
        obtain ⟨cmd, _, hexec⟩ := Option.bind_eq_some_iff.mp hexec
        cases Option.some.inj hexec
        cases hend
    · rw [runCommand_other hs] at h
      cases h
      exact owed_same rfl rfl rfl

/-- A loop that ends leaves one task unaccounted for if `uv_async_init` failed in
it, and none otherwise. -/
theorem readLoop_balance {n : Nat} {s : Session} {e : Ended} (h : readLoop uv n s = .ended e) :
    (AsyncFails uv s ∧ Owed s e.session 1) ∨ (¬ AsyncFails uv s ∧ Owed s e.session 0) := by
  have hidle : ∀ u : Session, ¬ u.conn.inputParsed < u.conn.inputUsed → ¬ AsyncFails uv u :=
    fun u hn ⟨m, hm, _⟩ => hn (calls_iff.mp hm).1
  induction n generalizing s with
  | zero =>
    unfold readLoop at h
    split at h
    next => cases h
    next hn => cases h; exact Or.inr ⟨hidle s hn, owed_same rfl rfl rfl⟩
  | succ n ih =>
    unfold readLoop at h
    split at h
    next hlt =>
      by_cases hhere : ∃ m, s.branch = some (.normally m) ∧ m.conn.state = .sExecute ∧
          uv.asyncInit m.log ≠ 0
      · obtain ⟨m, hb, hs, hf⟩ := hhere
        obtain ⟨t, what, hp, howed⟩ := pass_asyncFails hb hs hf
        rw [hp] at h
        cases h
        exact Or.inl ⟨⟨m, calls_iff.mpr ⟨hlt, Or.inl ⟨hb, hs⟩⟩, hf⟩, howed⟩
      · have hfine : ∀ m, s.branch = some (.normally m) → m.conn.state = .sExecute →
            uv.asyncInit m.log = 0 := fun m hb hs => by
          by_contra hf
          exact hhere ⟨m, hb, hs, hf⟩
        split at h
        next => cases h
        next t what hp =>
          cases h
          refine Or.inr ⟨?_, pass_owed_exact hp hfine⟩
          rintro ⟨m, hm, hf⟩
          rcases (calls_iff.mp hm).2 with ⟨hb, hs⟩ | ⟨u, hu, _⟩
          · exact hf (hfine m hb hs)
          · cases hp.symm.trans hu
        next t hp =>
          have hpass : Owed s t 0 := pass_owed_exact hp hfine
          rcases ih h with ⟨⟨m, hm, hf⟩, howed⟩ | ⟨hnone, howed⟩
          · exact Or.inl ⟨⟨m, calls_iff.mpr ⟨hlt, Or.inr ⟨t, hp, hm⟩⟩, hf⟩, by
              simpa using hpass.trans howed⟩
          · refine Or.inr ⟨?_, hpass.trans howed⟩
            rintro ⟨m, hm, hf⟩
            rcases (calls_iff.mp hm).2 with ⟨hb, hs⟩ | ⟨u, hu, hcalls⟩
            · exact hf (hfine m hb hs)
            · cases hp.symm.trans hu
              exact hnone ⟨m, hcalls, hf⟩
    next hn => cases h; exact Or.inr ⟨hidle s hn, owed_same rfl rfl rfl⟩

/-- In the loop of this read `uv_async_init` fails in a call of `Execute`. -/
def ReadFails (uv : Libuv) (s : Session) (data : Bytes) : Prop :=
  s.conn.state ≠ .sClosed ∧ ∃ a, s.arrived data = some a ∧ AsyncFails uv a

theorem step_balance {s t : Session} {data : Bytes} {passes : Nat} {r : Unit}
    (h : step uv passes s data = some (t, r)) :
    (ReadFails uv s data ∧ Owed s t 1) ∨ (¬ ReadFails uv s data ∧ Owed s t 0) := by
  obtain ⟨c, a, hc, ha, hend⟩ := step_cases h
  have hfirst := (arrived_quiet ha).owed
  rcases hend with ⟨hclosed, rfl⟩ | ⟨hopen, e, hloop, hlast⟩
  · have hsame := onAllocate_tasks hc
    exact Or.inr ⟨fun hf => hf.1 hclosed, owed_same rfl rfl hsame⟩
  · have hfails : ReadFails uv s data ↔ AsyncFails uv a := by
      refine ⟨fun ⟨_, a', ha', hf⟩ => ?_, fun hf => ⟨hopen, a, ha, hf⟩⟩
      cases ha.symm.trans ha'
      exact hf
    -- the handler for exceptions accounts for its own task
    have hend : ∀ extra, Owed a e.session extra → Owed s t extra := by
      intro extra howed
      have hall := hfirst.trans howed
      rw [Nat.zero_add] at hall
      rcases hlast with rfl | ⟨u, what, rfl, hfail⟩
      · exact hall
      · exact hall.trans (fail_owed hfail)
    rw [hfails]
    rcases readLoop_balance hloop with ⟨hf, howed⟩ | ⟨hf, howed⟩
    · exact Or.inl ⟨hf, hend 1 howed⟩
    · exact Or.inr ⟨hf, hend 0 howed⟩

end Session

namespace UvConnection

variable {uv : Libuv} {passes : Nat}

/-- The count of running tasks is the number of tasks whose `OnWriteDone` is
still to come, and a closed connection that waits for none has been closed. -/
structure Accounted (c : UvConnection) : Prop where
  count : c.session.conn.runningTasks = c.asyncs + c.writes
  closed : c.session.conn.state = .sClosed → c.asyncs + c.writes = 0 → c.closes ≠ []

/-- A read that is handled: `uv_async_init` returns 0 in each call of `Execute`. -/
def AsyncsWork (uv : Libuv) (passes : Nat) (c : UvConnection) : Callback → Prop
  | .readData data => ∀ d, c.step uv passes (.readData data) = some (d, ()) →
      ¬ Session.ReadFails uv c.session data
  | _ => True

theorem onConnectionOpen_accounted (memory : Bytes) (negative : Bool) (accept readStart : Int32) :
    (onConnectionOpen memory negative accept readStart).Accounted := by
  unfold onConnectionOpen
  dsimp only
  split
  next => exact ⟨rfl, fun _ _ => by simp [uvClose]⟩
  next =>
    split
    next => exact ⟨rfl, fun _ _ => by simp [uvClose]⟩
    next => exact ⟨rfl, fun hclosed => by cases hclosed⟩

/-- What a read adds to the count and to the tasks that libuv knows. -/
theorem read_count {c : UvConnection} {s : Session} {extra : Nat} (h : c.Accounted)
    (howed : Session.Owed c.session s extra) :
    s.conn.runningTasks = c.asyncs + (s.executed.length - c.session.executed.length) +
      (c.writes + (s.clientErrors.length - c.session.clientErrors.length)) + extra := by
  have hcount := h.count
  have hexec := howed.executed.length_le
  have herrors := howed.errors.length_le
  have hbalance := howed.balance
  unfold Session.tasks at hbalance
  omega

theorem Accounted.onWriteDone {c : UvConnection} (h : c.Accounted) (hpending : 0 < c.writes) :
    c.onWriteDone.Accounted := by
  have hcount := h.count
  have hrunning : c.session.conn.runningTasks ≠ 0 := by omega
  obtain ⟨d, rfl, ⟨_, hzero, hd⟩ | ⟨hsome, hd⟩⟩ := onWriteDone_cases c
  · rw [hd]
    refine ⟨?_, fun _ _ => by simp [uvClose]⟩
    simp only [uvClose, Session.record, decrement, if_neg hrunning]
    omega
  · rw [hd]
    have hless : decrement c.session.conn.runningTasks = c.asyncs + (c.writes - 1) := by
      rw [decrement, if_neg hrunning]
      omega
    refine ⟨hless, fun hclosed hnone => ?_⟩
    exact absurd ⟨hclosed, hless.trans hnone⟩ hsome

theorem Accounted.onStop {c : UvConnection} (h : c.Accounted) : c.onStop.Accounted := by
  obtain ⟨_, hd⟩ | ⟨d, rfl, _, ⟨_, hd⟩ | ⟨hrunning, hd⟩⟩ := onStop_cases c
  · rw [hd]
    exact ⟨h.count, h.closed⟩
  · rw [hd]
    exact ⟨h.count, fun _ _ => by simp [uvClose]⟩
  · rw [hd]
    exact ⟨h.count, fun _ hnone => absurd (h.count.trans hnone) hrunning⟩

theorem Accounted.step {c d : UvConnection} {e : Callback} {r : Unit} (h : c.Accounted)
    (hworks : c.AsyncsWork uv passes e) (hs : c.step uv passes e = some (d, r)) : d.Accounted := by
  cases moves_of_step hs with
  | @read reading data s step =>
    obtain ⟨hf, _⟩ | ⟨_, howed⟩ := Session.step_balance step
    · exact absurd hf (hworks _ hs)
    · refine ⟨read_count h howed, fun hclosed hnone => ?_⟩
      dsimp only at hnone ⊢
      -- only the error reply closes a connection, and it is written at once
      rcases Session.step_errors step with ⟨_, hstate⟩ | ⟨_, _, hone⟩
      · exact h.closed (hstate.mp hclosed) (by omega)
      · omega
  | ended reading moved =>
    have hcount := Session.onAllocate_tasks moved
    exact ⟨hcount.trans h.count, fun _ _ => by simp⟩
  | executed sent rc =>
    have hcount := h.count
    refine ⟨?_, fun hclosed hnone => ?_⟩
    · dsimp only
      omega
    · dsimp only at hnone
      omega
  | wrote pending status => exact h.onWriteDone pending
  | stopped first => exact h.onStop
  | @closed callback last first => cases callback <;> exact ⟨h.count, h.closed⟩

theorem asyncsWork_of_step {c : UvConnection} {e : Callback} (h : c.Accounted)
    (hnext : ∀ d r, c.step uv passes e = some (d, r) → d.Accounted) :
    c.AsyncsWork uv passes e := by
  cases e with
  | readData data =>
    intro d hs hf
    have hafter := hnext d () hs
    cases moves_of_step hs with
    | @read reading _ s step =>
      obtain ⟨_, howed⟩ | ⟨hnot, _⟩ := Session.step_balance step
      · have hcount := hafter.count
        have hmore := read_count h howed
        dsimp only at hcount
        omega
      · exact hnot hf
  | readFailed nread => exact trivial
  | executionDone rc => exact trivial
  | writeDone status => exact trivial
  | stop => exact trivial
  | closed => exact trivial

end UvConnection

/-- In a run of a connection the count of running tasks is right in every state
reached, if and only if `uv_async_init` never fails in `Execute`. -/
theorem tasks_accounted_iff (uv : Libuv) (passes : Nat) (memory : Bytes) (negative : Bool)
    (accept readStart : Int32) (events : List Callback) :
    (∀ history c, UvConnection.Reach uv passes
        (.onConnectionOpen memory negative accept readStart) history c →
      history.map Prod.fst <+: events → c.Accounted) ↔
    ∀ history c e, UvConnection.Reach uv passes
        (.onConnectionOpen memory negative accept readStart) history c →
      history.map Prod.fst ++ [e] <+: events → c.AsyncsWork uv passes e :=
  PartialRun.holds_along_iff (I := fun _ => True) trivial (fun _ _ _ _ _ _ => trivial)
    (UvConnection.onConnectionOpen_accounted memory negative accept readStart)
    (fun _ _ _ h => ⟨UvConnection.asyncsWork_of_step h, fun hc _ _ hs => h.step hc hs⟩) events

/-- `uv_async_init` fails: when the error reply is written one task is left that
is in no queue, and the closed connection stays open. -/
theorem failed_async_stays_counted :
    ∃ history c, UvConnection.Reach ⟨fun _ => -1, fun _ => 0⟩ 8
        (.onConnectionOpen (List.replicate connectionInputBufferSize 0) false 0 0) history c ∧
      history.map Prod.fst = [.readData (text "get a\r\n"), .writeDone 0] ∧
      (c.session.conn.runningTasks = 1 ∧ c.asyncs = 0 ∧ c.writes = 0 ∧
        c.session.conn.state = .sClosed ∧ c.closes = []) ∧ ¬ c.Accounted := by
  obtain ⟨history, c, reach, hcalls, hend⟩ := PartialRun.reach_of_check
    (UvConnection.step ⟨fun _ => -1, fun _ => 0⟩ 8)
    (.onConnectionOpen (List.replicate connectionInputBufferSize 0) false 0 0)
    [.readData (text "get a\r\n"), .writeDone 0]
    (fun c => c.session.conn.runningTasks = 1 ∧ c.asyncs = 0 ∧ c.writes = 0 ∧
      c.session.conn.state = .sClosed ∧ c.closes = []) (by decide)
  refine ⟨history, c, reach, hcalls, hend, fun haccounted => ?_⟩
  have hcount := haccounted.count
  rw [hend.1, hend.2.1, hend.2.2.1] at hcount
  omega

end Afina
