import Afina.ConnectionPipeline
import Afina.WorkerMoves

namespace Afina

namespace UvConnection

variable {uv : Libuv} {passes : Nat}

/-- An open connection has replied no error, and a closed one at most one. -/
structure Reported (c : UvConnection) : Prop where
  none : c.session.conn.state ≠ .sClosed → c.session.clientErrors = []
  once : c.session.clientErrors.length ≤ 1

theorem onConnectionOpen_reported (memory : Bytes) (negative : Bool) (accept readStart : Int32) :
    (onConnectionOpen memory negative accept readStart).Reported := by
  have hnone : (onConnectionOpen memory negative accept readStart).session.clientErrors = [] := by
    unfold onConnectionOpen
    dsimp only
    split
    next => rfl
    next => split <;> rfl
  exact ⟨fun _ => hnone, by rw [hnone]; exact Nat.zero_le 1⟩

theorem errors_record_uvClose (s : Session) :
    (s.record .uvClose).clientErrors = s.clientErrors := by
  simp [Session.record, Session.clientErrors]

theorem executed_record_uvClose (s : Session) : (s.record .uvClose).executed = s.executed := by
  simp [Session.record, Session.executed]

/-- Apart from a read, a callback replies no error, executes nothing, opens no
closed connection and does not raise the count. -/
theorem other_quiet {c d : UvConnection} {e : Callback} {r : Unit} (howes : c.Owes)
    (hread : ∀ data, e ≠ .readData data) (hs : c.step uv passes e = some (d, r)) :
    d.session.clientErrors = c.session.clientErrors ∧ d.session.executed = c.session.executed ∧
      (c.session.conn.state = .sClosed → d.session.conn.state = .sClosed) ∧
      d.session.conn.runningTasks ≤ c.session.conn.runningTasks := by
  cases moves_of_step hs with
  | read reading step => exact absurd rfl (hread _)
  | ended reading moved =>
    have hcount := Session.onAllocate_tasks moved
    have hstate := Session.onAllocate_state moved
    exact ⟨errors_record_uvClose _, executed_record_uvClose _, hstate.trans, hcount.le⟩
  | executed sent rc => exact ⟨rfl, rfl, id, Nat.le_refl _⟩
  | wrote pending status =>
    have hless := (howes.onWriteDone pending).2
    refine ⟨?_, ?_, ?_, by omega⟩
    all_goals obtain ⟨d, rfl, ⟨_, _, hd⟩ | ⟨_, hd⟩⟩ := onWriteDone_cases c <;> rw [hd]
    · exact errors_record_uvClose _
    · rfl
    · exact executed_record_uvClose _
    · rfl
    · exact id
    · exact id
  | stopped first =>
    obtain ⟨_, hd⟩ | ⟨d, rfl, _, ⟨_, hd⟩ | ⟨_, hd⟩⟩ := onStop_cases c <;> rw [hd]
    · exact ⟨rfl, rfl, id, Nat.le_refl _⟩
    · exact ⟨errors_record_uvClose _, executed_record_uvClose _, fun _ => rfl, Nat.le_refl _⟩
    · exact ⟨rfl, rfl, fun _ => rfl, Nat.le_refl _⟩
  | @closed callback last first => cases callback <;> exact ⟨rfl, rfl, id, Nat.le_refl _⟩

theorem Reported.step {c d : UvConnection} {e : Callback} {r : Unit} (h : c.Reported)
    (howes : c.Owes) (hs : c.step uv passes e = some (d, r)) : d.Reported := by
  by_cases hread : ∃ data, e = .readData data
  · obtain ⟨data, rfl⟩ := hread
    cases moves_of_step hs with
    | read reading step =>
      rcases Session.step_errors step with ⟨herrors, hstate⟩ | ⟨hopen, hclosed, hone⟩
      · refine ⟨fun hopen => herrors.trans (h.none fun hc => hopen (hstate.mpr hc)), ?_⟩
        exact (congrArg List.length herrors).trans_le h.once
      · refine ⟨fun hopen' => absurd hclosed hopen', ?_⟩
        rw [h.none hopen] at hone
        exact hone.le
  · obtain ⟨herrors, _, hstate, _⟩ :=
      other_quiet howes (fun data he => hread ⟨data, he⟩) hs
    refine ⟨fun hopen => herrors.trans (h.none fun hc => hopen (hstate hc)), ?_⟩
    rw [herrors]
    exact h.once

/-- What a closed connection has behind it does not grow any more. -/
structure Ended (c d : UvConnection) : Prop where
  state : d.session.conn.state = .sClosed
  executed : d.session.executed = c.session.executed
  errors : d.session.clientErrors = c.session.clientErrors
  count : d.session.conn.runningTasks ≤ c.session.conn.runningTasks

theorem Ended.step {c d d' : UvConnection} {e : Callback} {r : Unit} (h : Ended c d)
    (howes : d.Owes) (hs : d.step uv passes e = some (d', r)) : Ended c d' := by
  by_cases hread : ∃ data, e = .readData data
  · obtain ⟨data, rfl⟩ := hread
    cases moves_of_step hs with
    | @read reading _ s step =>
      obtain ⟨conn, a, hconn, _, ⟨_, rfl⟩ | ⟨hopen, _⟩⟩ := Session.step_cases step
      · have hcount := Session.onAllocate_tasks hconn
        have hstate := Session.onAllocate_state hconn
        exact ⟨hstate.trans h.state, h.executed, h.errors, hcount.le.trans h.count⟩
      · exact absurd h.state hopen
  · obtain ⟨herrors, hexecuted, hstate, hcount⟩ :=
      other_quiet howes (fun data he => hread ⟨data, he⟩) hs
    exact ⟨hstate h.state, hexecuted.trans h.executed, herrors.trans h.errors, hcount.trans h.count⟩

end UvConnection

/-- Once a connection is closed, in every run that goes on from there: it stays
closed, nothing more is executed or replied, the count of running tasks is never
raised, and a read of data returns before the loop in which `Execute` is called.
Of the error replies there is at most one. -/
theorem closed_absorbs (uv : Libuv) (passes : Nat) (memory : Bytes) (negative : Bool)
    (accept readStart : Int32) {before after : List (Callback × Unit)} {c d : UvConnection}
    (reach : UvConnection.Reach uv passes (.onConnectionOpen memory negative accept readStart)
      before c)
    (later : UvConnection.Reach uv passes c after d) :
    c.session.clientErrors.length ≤ 1 ∧
      (c.session.conn.state = .sClosed →
        d.session.conn.state = .sClosed ∧ d.session.executed = c.session.executed ∧
          d.session.clientErrors = c.session.clientErrors ∧
          d.session.conn.runningTasks ≤ c.session.conn.runningTasks ∧
          ∀ nread, 0 ≤ nread → Session.onRead uv 0 d.session nread = .ended (.normally d.session)) := by
  have hopen := UvConnection.onConnectionOpen_owes memory negative accept readStart
  have hreported := UvConnection.onConnectionOpen_reported memory negative accept readStart
  obtain ⟨howes, hc⟩ : c.Owes ∧ c.Reported :=
    reach.invariant (I := fun c => c.Owes ∧ c.Reported) ⟨hopen, hreported⟩
      fun _ _ _ _ h hs => ⟨h.1.step hs, h.2.step h.1 hs⟩
  refine ⟨hc.once, fun hclosed => ?_⟩
  obtain ⟨_, hend⟩ : d.Owes ∧ UvConnection.Ended c d :=
    later.invariant (I := fun d => d.Owes ∧ UvConnection.Ended c d)
      ⟨howes, hclosed, rfl, rfl, Nat.le_refl _⟩
      fun _ _ _ _ h hs => ⟨h.1.step hs, h.2.step h.1 hs⟩
  refine ⟨hend.state, hend.executed, hend.errors, hend.count, fun nread hn => ?_⟩
  rw [Session.onRead, if_neg (by omega), if_pos hend.state]

theorem closed_absorbs_bad_name :
    ∃ before after c d, UvConnection.Reach .working 8
        (.onConnectionOpen (List.replicate connectionInputBufferSize 0) false 0 0) before c ∧
      UvConnection.Reach .working 8 c after d ∧
      before.map Prod.fst = [.readData (text "get a\r\n"), .readData (text "put\r\n")] ∧
      after.map Prod.fst = [.readData (text "get b\r\n"), .executionDone 0, .writeDone 0] ∧
      c.session.conn.state = .sClosed ∧ d.session.conn.state = .sClosed ∧
      d.session.executed = c.session.executed ∧ d.session.clientErrors.length ≤ 1 := by
  obtain ⟨before, c, reach, hbefore, hclosed, hcheck⟩ := PartialRun.reach_of_check
    (UvConnection.step .working 8)
    (.onConnectionOpen (List.replicate connectionInputBufferSize 0) false 0 0)
    [.readData (text "get a\r\n"), .readData (text "put\r\n")]
    (fun c => c.session.conn.state = .sClosed ∧ ((PartialRun.run (UvConnection.step .working 8) c
      [.readData (text "get b\r\n"), .executionDone 0, .writeDone 0]).map fun _ => true) = some true)
    (by decide)
  obtain ⟨⟨d, after⟩, hrun, _⟩ := Option.map_eq_some_iff.mp hcheck
  have later := PartialRun.run_reach hrun
  have habsorbs := closed_absorbs .working 8 _ false 0 0 reach later
  obtain ⟨hstate, hexecuted, herrors, _⟩ := habsorbs.2 hclosed
  refine ⟨before, after, c, d, reach, later, hbefore, PartialRun.run_calls hrun, hclosed, hstate,
    hexecuted, ?_⟩
  rw [herrors]
  exact habsorbs.1

end Afina
