import Afina.WorkerMoves
import Afina.ConnectionPipeline

namespace Afina

namespace UvConnection

variable {uv : Libuv} {passes : Nat}

/-- The handle was closed at most once, `OnConnectionClosed` found no running
task, and no task in flight refers to a deleted connection. -/
def ClosedProperly (c : UvConnection) : Prop :=
  c.closes.length ≤ 1 ∧ (∀ n ∈ c.closedWith, n = 0) ∧ (c.deleted → c.asyncs = 0 ∧ c.writes = 0)

/-- The callbacks that the protocol stands: the stream does not end while tasks
are running, and the worker is not stopped between a call of `uv_close` and the
callback that takes the connection out of `alive`. -/
def Stands (c : UvConnection) : Callback → Prop
  | .readFailed _ => c.session.conn.runningTasks = 0
  | .stop => c.alive → c.session.conn.runningTasks = 0 → c.closes = []
  | _ => True

instance (c : UvConnection) (e : Callback) : Decidable (c.Stands e) :=
  match e with
  | .readFailed _ => inferInstanceAs (Decidable (c.session.conn.runningTasks = 0))
  | .stop => inferInstanceAs (Decidable (c.alive → c.session.conn.runningTasks = 0 → c.closes = []))
  | .readData _ => inferInstanceAs (Decidable True)
  | .executionDone _ => inferInstanceAs (Decidable True)
  | .writeDone _ => inferInstanceAs (Decidable True)
  | .closed => inferInstanceAs (Decidable True)

/-- Once `uv_close` was called nothing is running and nothing is read any more. -/
structure Orderly (c : UvConnection) : Prop where
  owed : c.asyncs + c.writes ≤ c.session.conn.runningTasks
  once : c.closes.length ≤ 1
  idle : c.closes ≠ [] → c.session.conn.runningTasks = 0 ∧ c.reading = false
  asserted : ∀ n ∈ c.closedWith, n = 0
  closed : c.deleted → c.closes ≠ []
  pending : c.closes = [] → c.closeRan = false

theorem Orderly.not_closedTwice {c : UvConnection} (h : c.Orderly) : ¬ c.ClosedTwice := by
  have := h.once
  unfold ClosedTwice
  omega

theorem Orderly.closedProperly {c : UvConnection} (h : c.Orderly) : c.ClosedProperly := by
  refine ⟨h.once, h.asserted, fun hd => ?_⟩
  have hidle := (h.idle (h.closed hd)).1
  have howed := h.owed
  omega

/-- A first call of `uv_close`, when nothing is running. -/
theorem Orderly.uvClose {c : UvConnection} (h : c.Orderly) (hfirst : c.closes = [])
    (hidle : c.session.conn.runningTasks = 0) (callback : CloseCallback) :
    (c.uvClose callback).Orderly where
  owed := h.owed
  once := by simp [UvConnection.uvClose, hfirst]
  idle _ := ⟨hidle, rfl⟩
  asserted := h.asserted
  closed _ := by simp [UvConnection.uvClose]
  pending hnil := by simp [UvConnection.uvClose] at hnil

theorem onConnectionOpen_orderly (memory : Bytes) (negative : Bool) (accept readStart : Int32) :
    (onConnectionOpen memory negative accept readStart).Orderly := by
  have hnew : ∀ reading, (⟨Session.fresh memory negative, true, reading, 0, 0, [], false, false,
      none, false⟩ : UvConnection).Orderly := fun reading =>
    ⟨Nat.le_refl 0, Nat.zero_le 1, fun hne => absurd rfl hne, by simp, by simp, fun _ => rfl⟩
  unfold onConnectionOpen
  dsimp only
  split
  next => exact (hnew false).uvClose rfl rfl _
  next =>
    split
    next => exact (hnew false).uvClose rfl rfl _
    next => exact hnew true

theorem Orderly.first_of_reading {c : UvConnection} (h : c.Orderly) (hreading : c.reading = true) :
    c.closes = [] := by
  by_contra hne
  have := (h.idle hne).2
  simp [hreading] at this

theorem Orderly.onWriteDone {c : UvConnection} (h : c.Orderly) (hpending : 0 < c.writes) :
    c.onWriteDone.Orderly := by
  have howed := h.owed
  have hfirst : c.closes = [] := by
    by_contra hne
    have := (h.idle hne).1
    omega
  have howes := (Owes.onWriteDone h.owed hpending).1
  obtain ⟨d, rfl, ⟨_, hidle, hd⟩ | ⟨_, hd⟩⟩ := onWriteDone_cases c
  · rw [hd] at howes ⊢
    have hless : Orderly { c with
        writes := c.writes - 1
        session := { c.session with conn := { c.session.conn with
          runningTasks := decrement c.session.conn.runningTasks } } } :=
      ⟨howes, h.once, fun hne => absurd hfirst hne, h.asserted, h.closed, h.pending⟩
    exact hless.uvClose hfirst hidle _
  · rw [hd] at howes ⊢
    exact ⟨howes, h.once, fun hne => absurd hfirst hne, h.asserted, h.closed, h.pending⟩

theorem Orderly.onStop {c : UvConnection} (h : c.Orderly) (hstands : c.Stands .stop) :
    c.onStop.Orderly := by
  obtain ⟨_, hd⟩ | ⟨d, rfl, halive, hstop⟩ := onStop_cases c
  · rw [hd]
    exact ⟨h.owed, h.once, h.idle, h.asserted, h.closed, h.pending⟩
  · have hmarked : Orderly { c with
        stopRan := true
        session := { c.session with conn := { c.session.conn with state := .sClosed } }
        reading := false } :=
      ⟨h.owed, h.once, fun hne => ⟨(h.idle hne).1, rfl⟩, h.asserted, h.closed, h.pending⟩
    obtain ⟨hidle, hd⟩ | ⟨_, hd⟩ := hstop
    · rw [hd]
      exact hmarked.uvClose (hstands halive hidle) hidle _
    · rw [hd]
      exact hmarked

theorem Orderly.onClosed {c : UvConnection} (h : c.Orderly) (hclosing : c.closes ≠ [])
    (callback : CloseCallback) : ({ c with closeRan := true }.onClosed callback).Orderly := by
  cases callback with
  | onHandleClosed =>
    exact ⟨h.owed, h.once, h.idle, h.asserted, h.closed, fun hnil => absurd hnil hclosing⟩
  | onConnectionClosed =>
    refine ⟨h.owed, h.once, h.idle, fun n hn => ?_, fun _ => hclosing,
      fun hnil => absurd hnil hclosing⟩
    cases Option.some.inj hn
    exact (h.idle hclosing).1

theorem Orderly.step {c d : UvConnection} (h : c.Orderly) {e : Callback} {r : Unit}
    (hstands : c.Stands e) (hs : c.step uv passes e = some (d, r)) : d.Orderly := by
  have howes : d.Owes := Owes.step h.owed hs
  cases moves_of_step hs with
  | read reading step =>
    have hfirst := h.first_of_reading reading
    exact ⟨howes, h.once, fun hne => absurd hfirst hne, h.asserted, h.closed, h.pending⟩
  | ended reading moved =>
    have hfirst := h.first_of_reading reading
    have hidle := (Session.onAllocate_tasks moved).trans hstands
    exact ⟨howes, by simp [hfirst], fun _ => ⟨hidle, rfl⟩, h.asserted, fun _ => by simp, by simp⟩
  | executed sent rc => exact ⟨howes, h.once, h.idle, h.asserted, h.closed, h.pending⟩
  | wrote pending status => exact h.onWriteDone pending
  | stopped first => exact h.onStop hstands
  | closed last first =>
    refine h.onClosed (fun hnil => ?_) _
    simp [hnil] at last

/-- A callback that the protocol does not stand: the handle is closed twice, or
the close callback, if it comes next, finds a running task. -/
theorem Orderly.stands {c d : UvConnection} (h : c.Orderly) {e : Callback} {r : Unit}
    (hs : c.step uv passes e = some (d, r)) (hd : d.ClosedProperly)
    (hnext : ∀ f r, d.step uv passes .closed = some (f, r) → f.ClosedProperly) : c.Stands e := by
  cases moves_of_step hs with
  | ended reading moved =>
    have hfirst := h.first_of_reading reading
    have hpending := h.pending hfirst
    have hlast : (c.closes ++ [CloseCallback.onConnectionClosed]).getLast? =
        some .onConnectionClosed := List.getLast?_concat
    have hclosed := hnext _ () (step_closed (by simp [ClosedTwice, hfirst]) hlast hpending)
    exact (Session.onAllocate_tasks moved).symm.trans (hclosed.2.1 _ rfl)
  | stopped first =>
    intro halive hidle
    by_contra hne
    have hlen := hd.1
    have hpos := List.length_pos_iff.mpr hne
    simp only [UvConnection.onStop, halive, if_true, hidle, UvConnection.uvClose,
      List.length_append, List.length_singleton] at hlen
    omega
  | read reading step => exact trivial
  | executed sent rc => exact trivial
  | wrote pending status => exact trivial
  | closed last first => exact trivial

end UvConnection

/-- Over every run of a connection, in which the close callback may come at any
point after `uv_close`: the handle is closed at most once, `OnConnectionClosed`
finds no running task and no task in flight refers to a deleted connection, if
and only if every callback made is one that the protocol stands. -/
theorem closed_properly_iff (uv : Libuv) (passes : Nat) (memory : Bytes) (negative : Bool)
    (accept readStart : Int32) (events : List Callback) :
    (∀ history c, UvConnection.Reach uv passes
        (.onConnectionOpen memory negative accept readStart) history c →
      history.map Prod.fst <+: events ∨
        (∃ part, part <+: events ∧ history.map Prod.fst = part ++ [.closed]) →
      c.ClosedProperly) ↔
    ∀ history c e d, UvConnection.Reach uv passes
        (.onConnectionOpen memory negative accept readStart) history c →
      history.map Prod.fst ++ [e] <+: events → c.step uv passes e = some (d, ()) → c.Stands e := by
  have hopen := UvConnection.onConnectionOpen_orderly memory negative accept readStart
  constructor
  · intro hp
    have hstands : ∀ history c e d, UvConnection.Reach uv passes
        (.onConnectionOpen memory negative accept readStart) history c → c.Orderly →
        history.map Prod.fst ++ [e] <+: events → c.step uv passes e = some (d, ()) →
        c.Stands e := by
      intro history c e d reach horderly hpre hs
      have hnext : UvConnection.Reach uv passes _ (history ++ [(e, ())]) d := .next reach hs
      refine horderly.stands hs (hp _ d hnext (Or.inl (by simpa using hpre))) fun f r hf => ?_
      exact hp _ f (.next hnext hf) (Or.inr ⟨_, hpre, by simp⟩)
    intro history c e d reach hpre hs
    refine hstands history c e d reach ?_ hpre hs
    refine reach.invariant_within (I := fun _ => UvConnection.Orderly)
      ((List.prefix_append _ _).trans hpre) hopen ?_
    intro before c e d r reach hnext horderly hs
    exact horderly.step (hstands before c e d reach horderly hnext hs) hs
  · intro hc
    have horderly : ∀ history c, UvConnection.Reach uv passes
        (.onConnectionOpen memory negative accept readStart) history c →
        history.map Prod.fst <+: events → c.Orderly := by
      intro history c reach hpre
      refine reach.invariant_within (I := fun _ => UvConnection.Orderly) hpre hopen ?_
      intro before c e d r reach hnext horderly hs
      exact horderly.step (hc before c e d reach hnext hs) hs
    rintro history c reach (hpre | ⟨part, hpart, heq⟩)
    · exact (horderly history c reach hpre).closedProperly
    · cases reach with
      | start => simp at heq
      | @next history c' e r _ reach hs =>
        obtain ⟨hpart', he⟩ : history.map Prod.fst = part ∧ e = .closed := by simpa using heq
        subst he hpart'
        have hstands : c'.Stands .closed := trivial
        exact ((horderly history c' reach hpart).step hstands hs).closedProperly

/-- The stream ends while a reply is on its way: the connection is deleted with
the task in flight. -/
theorem end_of_stream_deletes_running :
    ∃ history c, UvConnection.Reach .working 8
        (.onConnectionOpen (List.replicate connectionInputBufferSize 0) false 0 0) history c ∧
      history.map Prod.fst = [.readData (text "get a\r\n"), .readFailed (-4095), .closed] ∧
      (c.closedWith = some 1 ∧ c.deleted = true ∧ c.asyncs = 1) ∧ ¬ c.ClosedProperly := by
  obtain ⟨history, c, reach, hcalls, hend⟩ := PartialRun.reach_of_check
    (UvConnection.step .working 8)
    (.onConnectionOpen (List.replicate connectionInputBufferSize 0) false 0 0)
    [.readData (text "get a\r\n"), .readFailed (-4095), .closed]
    (fun c => c.closedWith = some 1 ∧ c.deleted = true ∧ c.asyncs = 1) (by decide)
  refine ⟨history, c, reach, hcalls, hend, fun hproper => ?_⟩
  have := hproper.2.1 1 hend.1
  omega

end Afina
