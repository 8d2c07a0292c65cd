import Afina.ExecutorCore

namespace Afina

namespace Executor

variable {τ : Type}

/-- The critical sections in which a worker evaluates the predicate, with the
counter they leave. -/
inductive Evaluates (e : Executor τ) (w : Nat) : Act τ → UInt64 → Prop
  | lock (phase : e.workers[w]? = some .top) : Evaluates e w (.lock w) (e.numWorking - 1)
  | wake (phase : e.workers[w]? = some .waiting) (timedOut : Bool) :
      Evaluates e w (.wake w timedOut) e.numWorking

/-- What one step can do. -/
inductive Moves (e : Executor τ) : Act τ → Outcome τ → Executor τ → Prop
  | refused (task : τ) : Moves e (.execute task) (.executed false) e
  | accepted (task : τ) (run : e.state = .kRun) (room : e.tasks.length ≠ e.maxQueueSize) :
      Moves e (.execute task) (.executed true)
        { (if e.Crowded then e.spawn else e) with tasks := e.tasks ++ [task] }
  | left {w : Nat} {a : Act τ} {n : UInt64} (act : e.Evaluates w a n) (empty : e.tasks = [])
      (spare : e.lowWatermark < e.threads.length ∨ e.state ≠ .kRun) :
      Moves e a .quiet { e with
        numWorking := n, threads := e.threads.erase w, workers := e.workers.set w .returned }
  | stayed {w : Nat} {a : Act τ} {n : UInt64} (act : e.Evaluates w a n) (p : WorkerPhase τ)
      (phase : p = .top ∨ p = .waiting) :
      Moves e a .quiet { e with numWorking := n, workers := e.workers.set w p }
  | gaveUp {w : Nat} (phase : e.workers[w]? = some .waiting) (stopped : e.state = .kStopped)
      (left : e.tasks ≠ []) :
      Moves e (.wake w true) .quiet { e with workers := e.workers.set w .returned }
  | dequeued {w : Nat} (phase : e.workers[w]? = some .waiting) (run : e.state = .kRun) {task : τ}
      {rest : List τ} (front : e.tasks = task :: rest) :
      Moves e (.wake w true) (.dequeued task) { e with
        numWorking := e.numWorking + 1, tasks := rest, workers := e.workers.set w (.running task) }
  | finished {w : Nat} {task : τ} (phase : e.workers[w]? = some (.running task)) :
      Moves e (.finish w) (.ran task) { e with workers := e.workers.set w .top }
  | stopping {a : Act τ} {state : ExecutorState} {stops : List StopPhase} {joined : List Nat}
      (act : (∃ await, a = .stop await) ∨ ∃ call, a = .goOn call)
      (down : state = .kRun → e.state = .kRun) :
      Moves e a .quiet { e with state := state, stops := stops, joined := joined }

theorem moves_awake {e e' : Executor τ} {w : Nat} {a : Act τ} {n : UInt64}
    (act : e.Evaluates w a n) (h : { e with numWorking := n }.awake w = e') :
    e.Moves a .quiet e' := by
  subst h
  unfold awake
  split
  next hl =>
    rcases hl with ⟨hspare, hempty⟩ | ⟨hrun, hempty⟩
    · exact .left act (List.isEmpty_iff.mp hempty) (Or.inl hspare)
    · exact .left act (List.isEmpty_iff.mp hempty) (Or.inr hrun)
  next => exact .stayed act .top (Or.inl rfl)

theorem moves_wake {e e' : Executor τ} {w : Nat} {timedOut : Bool} {o : Outcome τ}
    (phase : e.workers[w]? = some .waiting) (h : e.wake w timedOut = some (e', o)) :
    e.Moves (.wake w timedOut) o e' := by
  unfold wake at h
  split at h
  next =>
    cases h
    exact moves_awake (.wake phase timedOut) rfl
  next hready =>
    have hempty : e.tasks ≠ [] := fun he => hready (Or.inr (List.isEmpty_iff.mpr he))
    cases timedOut with
    | false =>
      cases h
      have hsame : e.workers.set w .waiting = e.workers := by
        apply List.ext_getElem?
        intro i
        grind
      have hmove := Moves.stayed (.wake phase false) .waiting (Or.inr rfl)
      rwa [hsame] at hmove
    | true =>
      simp only [if_true, dequeue] at h
      split at h
      next hstopped =>
        cases h
        exact .gaveUp phase hstopped hempty
      next hstopped =>
        split at h
        next => simp at h
        next task rest hfront =>
          cases h
          refine .dequeued phase ?_ hfront
          cases hs : e.state with
          | kRun => rfl
          | kStopping => exact absurd (Or.inl hs) hready
          | kStopped => exact absurd hs hstopped

theorem moves_goOn {e e' : Executor τ} {call : Nat} (h : e.goOn call = some e') :
    e.Moves (.goOn call) .quiet e' := by
  have hact : (∃ await, Act.goOn call = (.stop await : Act τ)) ∨
      ∃ c, Act.goOn call = (.goOn c : Act τ) := Or.inr ⟨call, rfl⟩
  unfold goOn at h
  split at h
  next =>
    split at h
    next => cases h; exact .stopping hact id
    next => split at h <;> cases h <;> exact .stopping hact id
  next =>
    split at h
    next => cases h; exact .stopping hact id
    next => cases h
  next => cases h; exact .stopping hact (by simp)
  next => cases h

theorem moves_of_step {e e' : Executor τ} {a : Act τ} {o : Outcome τ}
    (h : e.step a = some (e', o)) : e.Moves a o e' := by
  cases a with
  | execute task =>
    simp only [step, Option.some.injEq, Prod.mk.injEq] at h
    obtain ⟨rfl, rfl⟩ := h
    unfold execute
    split
    next => exact .refused task
    next hrun =>
      split
      next => exact .refused task
      next hroom =>
        have htasks : (if e.Crowded then e.spawn else e).tasks = e.tasks := by split <;> rfl
        dsimp only
        rw [htasks]
        exact .accepted task (Decidable.not_not.mp hrun) hroom
  | lock w =>
    simp only [step] at h
    split at h
    next phase =>
      cases h
      dsimp only [lock]
      split
      next => exact moves_awake (.lock phase) rfl
      next => exact .stayed (.lock phase) .waiting (Or.inr rfl)
    next => cases h
  | wake w timedOut =>
    simp only [step] at h
    split at h
    next phase => exact moves_wake phase h
    next => cases h
  | finish w =>
    simp only [step] at h
    split at h
    next task phase =>
      cases h
      exact .finished phase
    next => cases h
  | stop await =>
    cases h
    refine .stopping (Or.inl ⟨await, rfl⟩) ?_
    split
    next => simp
    next => exact id
  | goOn call =>
    obtain ⟨t, ht, he⟩ := Option.map_eq_some_iff.mp h
    cases he
    exact moves_goOn ht

theorem acceptedTasks_quiet (history : List (Act τ × Outcome τ)) (a : Act τ) :
    acceptedTasks (history ++ [(a, .quiet)]) = acceptedTasks history := by
  cases a <;> simp [acceptedTasks]

theorem dequeuedTasks_quiet (history : List (Act τ × Outcome τ)) (a : Act τ) :
    dequeuedTasks (history ++ [(a, .quiet)]) = dequeuedTasks history := by
  simp [dequeuedTasks]

/-- The queue is what was accepted and not yet taken, in that order. -/
theorem fifo_step {history : List (Act τ × Outcome τ)} {e e' : Executor τ} {a : Act τ}
    {o : Outcome τ} (h : acceptedTasks history = dequeuedTasks history ++ e.tasks)
    (hs : e.step a = some (e', o)) :
    acceptedTasks (history ++ [(a, o)]) = dequeuedTasks (history ++ [(a, o)]) ++ e'.tasks := by
  cases moves_of_step hs with
  | refused task => simpa [acceptedTasks, dequeuedTasks] using h
  | accepted task run room =>
    have hlonger := congrArg (· ++ [task]) h
    simpa [acceptedTasks, dequeuedTasks] using hlonger
  | left act empty spare => rwa [acceptedTasks_quiet, dequeuedTasks_quiet]
  | stayed act p phase => rwa [acceptedTasks_quiet, dequeuedTasks_quiet]
  | gaveUp phase stopped tasksLeft => rwa [acceptedTasks_quiet, dequeuedTasks_quiet]
  | dequeued phase run front =>
    rw [front] at h
    simpa [acceptedTasks, dequeuedTasks] using h
  | finished phase => simpa [acceptedTasks, dequeuedTasks] using h
  | stopping act down => rwa [acceptedTasks_quiet, dequeuedTasks_quiet]

theorem Reach.fifo {low high maxQueue : Nat} {history : List (Act τ × Outcome τ)}
    {e : Executor τ} (reach : Executor.Reach low high maxQueue history e) :
    acceptedTasks history = dequeuedTasks history ++ e.tasks := by
  induction reach with
  | start => rfl
  | next _ hs ih => exact fifo_step ih hs

/-- Queue and threads keep to their bounds. -/
structure Bounded (low high maxQueue : Nat) (e : Executor τ) : Prop where
  lowWatermark : e.lowWatermark = low
  highWatermark : e.highWatermark = high
  maxQueueSize : e.maxQueueSize = maxQueue
  queue : e.tasks.length ≤ maxQueue
  upper : e.threads.length ≤ high
  lower : e.state = .kRun → low ≤ e.threads.length

theorem bounded_constructed {low high : Nat} (hw : low ≤ high) (maxQueue : Nat) :
    Bounded low high maxQueue (constructed low high maxQueue : Executor τ) where
  lowWatermark := rfl
  highWatermark := rfl
  maxQueueSize := rfl
  queue := Nat.zero_le _
  upper := by simpa [constructed] using hw
  lower _ := by simp [constructed]

theorem length_erase_bounds (threads : List Nat) (w : Nat) :
    (threads.erase w).length ≤ threads.length ∧ threads.length ≤ (threads.erase w).length + 1 := by
  rw [List.length_erase]
  split <;> omega

theorem Bounded.step {low high maxQueue : Nat} {e e' : Executor τ} {a : Act τ} {o : Outcome τ}
    (h : Bounded low high maxQueue e) (hs : e.step a = some (e', o)) :
    Bounded low high maxQueue e' := by
  obtain ⟨hlow, hhigh, hmax, hqueue, hupper, hlower⟩ := h
  cases moves_of_step hs with
  | refused task => exact ⟨hlow, hhigh, hmax, hqueue, hupper, hlower⟩
  | accepted task run room =>
    have hleast := hlower run
    have hroom : (e.tasks ++ [task]).length ≤ maxQueue := by
      rw [List.length_append, List.length_singleton]
      omega
    by_cases hc : e.Crowded
    · rw [if_pos hc]
      have hone := hc.2
      refine ⟨hlow, hhigh, hmax, hroom, ?_, fun _ => ?_⟩
      · simp only [spawn, List.length_append, List.length_singleton]
        omega
      · simp only [spawn, List.length_append, List.length_singleton]
        omega
    · rw [if_neg hc]
      exact ⟨hlow, hhigh, hmax, hroom, hupper, hlower⟩
  | @left w _ _ act empty spare =>
    obtain ⟨hle, hge⟩ := length_erase_bounds e.threads w
    refine ⟨hlow, hhigh, hmax, hqueue, hle.trans hupper, fun hrun => ?_⟩
    have := spare.resolve_right (not_not.mpr hrun)
    simp only
    omega
  | stayed act p phase => exact ⟨hlow, hhigh, hmax, hqueue, hupper, hlower⟩
  | gaveUp phase stopped tasksLeft => exact ⟨hlow, hhigh, hmax, hqueue, hupper, hlower⟩
  | @dequeued w phase run task rest front =>
    rw [front, List.length_cons] at hqueue
    exact ⟨hlow, hhigh, hmax, Nat.le_of_succ_le hqueue, hupper, hlower⟩
  | finished phase => exact ⟨hlow, hhigh, hmax, hqueue, hupper, hlower⟩
  | stopping act down => exact ⟨hlow, hhigh, hmax, hqueue, hupper, fun hrun => hlower (down hrun)⟩

/-- The only undefined step would be to take the front of an empty queue, and no
worker gets there: past the wait the predicate did not hold, with the mutex. -/
theorem step_defined (e : Executor τ) {a : Act τ} (h : e.Enabled a) : (e.step a).isSome := by
  cases a with
  | execute task => rfl
  | lock w =>
    simp only [Enabled] at h
    simp [Executor.step, h]
  | wake w timedOut =>
    simp only [Enabled] at h
    simp only [Executor.step, h, wake]
    split
    next => rfl
    next hready =>
      cases timedOut with
      | false => rfl
      | true =>
        simp only [if_true, dequeue]
        split
        next => rfl
        next =>
          cases hfront : e.tasks with
          | nil => exact absurd (Or.inr (List.isEmpty_iff.mpr hfront)) hready
          | cons task rest => rfl
  | finish w =>
    obtain ⟨task, h⟩ := h
    simp [Executor.step, h]
  | stop await => rfl
  | goOn call =>
    simp only [Enabled] at h
    simpa [Executor.step] using h

end Executor

/-- In every interleaving the accepted tasks are those dequeued so far followed
by the queue, queue and threads keep to their bounds, and no step that a party
can take has an undefined result. -/
theorem queue_disciplined {τ : Type} {low high maxQueue : Nat} (hw : low ≤ high)
    {history : List (Act τ × Outcome τ)} {e : Executor τ}
    (reach : Executor.Reach low high maxQueue history e) :
    acceptedTasks history = dequeuedTasks history ++ e.tasks ∧ e.tasks.length ≤ maxQueue ∧
      e.threads.length ≤ high ∧ (e.state = .kRun → low ≤ e.threads.length) ∧
      ∀ a, e.Enabled a → (e.step a).isSome := by
  have h : e.Bounded low high maxQueue :=
    reach.invariant (Executor.bounded_constructed hw maxQueue) fun _ _ _ _ h hs => h.step hs
  exact ⟨Executor.Reach.fifo reach, h.queue, h.upper, h.lower, fun a => e.step_defined⟩

theorem queue_disciplined_two_tasks :
    ∃ (history : List (Act Nat × Outcome Nat)) (e : Executor Nat), Executor.Reach 1 2 2 history e ∧
      history.map Prod.fst = [.execute 7, .lock 0, .wake 0 true, .execute 8, .finish 0, .stop true] ∧
      acceptedTasks history = dequeuedTasks history ++ e.tasks ∧ e.tasks = [8] := by
  obtain ⟨history, e, reach, hacts, htasks⟩ := PartialRun.reach_of_check
    (Executor.step (τ := Nat)) (Executor.constructed 1 2 2)
    [.execute 7, .lock 0, .wake 0 true, .execute 8, .finish 0, .stop true]
    (fun e => e.tasks = [8]) (by decide)
  exact ⟨history, e, reach, hacts, (queue_disciplined (by decide) reach).1, htasks⟩

end Afina
