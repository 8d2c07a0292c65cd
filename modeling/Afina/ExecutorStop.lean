import Afina.ExecutorQueue
import Mathlib.Data.List.Perm.Basic

namespace Afina

def WorkerPhase.task {τ : Type} : WorkerPhase τ → Option τ
  | .running task => some task
  | _ => none

namespace Executor

variable {τ : Type}

/-- The tasks that are being run. -/
def held (e : Executor τ) : List τ := e.workers.filterMap WorkerPhase.task

def AllReturned (e : Executor τ) : Prop := ∀ p ∈ e.workers, p = .returned

theorem held_set {workers : List (WorkerPhase τ)} {w : Nat} {p : WorkerPhase τ}
    (h : workers[w]? = some p) : ∃ rest,
      (workers.filterMap WorkerPhase.task).Perm (p.task.toList ++ rest) ∧
      ∀ q, ((workers.set w q).filterMap WorkerPhase.task).Perm (q.task.toList ++ rest) := by
  obtain ⟨hlt, hp⟩ := List.getElem?_eq_some_iff.mp h
  refine ⟨(workers.take w ++ workers.drop (w + 1)).filterMap WorkerPhase.task, ?_, fun q => ?_⟩
  · have hsplit : workers = workers.take w ++ p :: workers.drop (w + 1) := by
      rw [← hp, List.getElem_cons_drop, List.take_append_drop]
    nth_rewrite 1 [hsplit]
    refine (List.perm_middle.filterMap _).trans ?_
    cases hq : p.task <;> simp [hq]
  · rw [List.set_eq_take_append_cons_drop, if_pos hlt]
    refine (List.perm_middle.filterMap _).trans ?_
    cases hq : q.task <;> simp [hq]

theorem held_set_idle {workers : List (WorkerPhase τ)} {w : Nat} {p q : WorkerPhase τ}
    (h : workers[w]? = some p) (hp : p.task = none) (hq : q.task = none) :
    ((workers.set w q).filterMap WorkerPhase.task).Perm (workers.filterMap WorkerPhase.task) := by
  obtain ⟨rest, hold, hnew⟩ := held_set h
  have hset := hnew q
  rw [hp] at hold
  rw [hq] at hset
  exact hset.trans hold.symm

theorem Evaluates.idle {e : Executor τ} {w : Nat} {a : Act τ} {n : UInt64}
    (h : e.Evaluates w a n) : ∃ p, e.workers[w]? = some p ∧ p.task = none := by
  cases h with
  | lock phase => exact ⟨.top, phase, rfl⟩
  | wake phase => exact ⟨.waiting, phase, rfl⟩

/-- What was dequeued has been run or is being run. -/
theorem held_step {history : List (Act τ × Outcome τ)} {e e' : Executor τ} {a : Act τ}
    {o : Outcome τ} (h : (dequeuedTasks history).Perm (ranTasks history ++ e.held))
    (hs : e.step a = some (e', o)) :
    (dequeuedTasks (history ++ [(a, o)])).Perm (ranTasks (history ++ [(a, o)]) ++ e'.held) := by
  have hquiet : o = .quiet ∨ (∃ ok, o = .executed ok) → e'.held.Perm e.held →
      (dequeuedTasks (history ++ [(a, o)])).Perm (ranTasks (history ++ [(a, o)]) ++ e'.held) := by
    intro ho hheld
    have hsame := h.trans (hheld.symm.append_left _)
    rcases ho with rfl | ⟨ok, rfl⟩ <;> simpa [dequeuedTasks, ranTasks] using hsame
  cases moves_of_step hs with
  | refused task => exact hquiet (Or.inr ⟨_, rfl⟩) (.refl _)
  | accepted task run room =>
    refine hquiet (Or.inr ⟨_, rfl⟩) ?_
    split
    next =>
      have hnone : [WorkerPhase.top].filterMap (WorkerPhase.task (τ := τ)) = [] := rfl
      simp [held, spawn, hnone]
    next => exact .refl _
  | left act empty spare =>
    obtain ⟨p, phase, hp⟩ := act.idle
    exact hquiet (Or.inl rfl) (held_set_idle phase hp rfl)
  | stayed act q hq =>
    obtain ⟨p, phase, hp⟩ := act.idle
    refine hquiet (Or.inl rfl) (held_set_idle phase hp ?_)
    rcases hq with rfl | rfl <;> rfl
  | gaveUp phase stopped tasksLeft => exact hquiet (Or.inl rfl) (held_set_idle phase rfl rfl)
  | @dequeued w phase run task rest front =>
    obtain ⟨idle, hold, hnew⟩ := held_set phase
    have hgoal : (dequeuedTasks history ++ [task]).Perm (ranTasks history ++
        (e.workers.set w (.running task)).filterMap WorkerPhase.task) :=
      calc dequeuedTasks history ++ [task]
        _ |>.Perm ((ranTasks history ++ e.held) ++ [task]) := h.append_right _
        _ |>.Perm (ranTasks history ++ ([task] ++ e.held)) := by
          rw [List.append_assoc]
          exact List.perm_append_comm.append_left _
        _ |>.Perm (ranTasks history ++ ([task] ++ idle)) := (hold.append_left _).append_left _
        _ |>.Perm _ := (hnew (.running task)).symm.append_left _
    simpa [dequeuedTasks, ranTasks, held] using hgoal
  | @finished w task phase =>
    obtain ⟨idle, hold, hnew⟩ := held_set phase
    have hgoal : (dequeuedTasks history).Perm ((ranTasks history ++ [task]) ++
        (e.workers.set w .top).filterMap WorkerPhase.task) := by
      rw [List.append_assoc]
      refine h.trans ((hold.trans ?_).append_left _)
      exact (hnew .top).symm.append_left [task]
    simpa [dequeuedTasks, ranTasks, held] using hgoal
  | stopping act down => exact hquiet (Or.inl rfl) (.refl _)

theorem Reach.held {low high maxQueue : Nat} {history : List (Act τ × Outcome τ)}
    {e : Executor τ} (reach : Executor.Reach low high maxQueue history e) :
    (dequeuedTasks history).Perm (ranTasks history ++ e.held) := by
  induction reach with
  | start =>
    have hnone : (constructed low high maxQueue : Executor τ).held = [] := by
      simp [Executor.held, constructed, WorkerPhase.task]
    rw [hnone]
    exact .refl _
  | next _ hs ih => exact held_step ih hs

/-- Once no thread is left, all accepted tasks have been run exactly if none is
left in the queue. -/
theorem Reach.ran_iff {low high maxQueue : Nat} {history : List (Act τ × Outcome τ)}
    {e : Executor τ} (reach : Executor.Reach low high maxQueue history e)
    (hall : e.AllReturned) : (acceptedTasks history).Perm (ranTasks history) ↔ e.tasks = [] := by
  have hnone : e.held = [] := by
    refine List.filterMap_eq_nil_iff.mpr fun p hp => ?_
    rw [hall p hp]
    rfl
  have hheld := Reach.held reach
  rw [hnone, List.append_nil] at hheld
  rw [Reach.fifo reach]
  constructor
  · intro hperm
    have hlen := hperm.length_eq
    rw [List.length_append, hheld.length_eq] at hlen
    exact List.eq_nil_of_length_eq_zero (by omega)
  · intro hempty
    rw [hempty, List.append_nil]
    exact hheld

/-- The steps that leave no task behind: an accepted task finds a thread that
has not returned or gets a new one, and a worker that wakes in `kStopped` to a
queue with tasks is not the last thread. -/
def LeavesNone (e : Executor τ) : Act τ → Prop
  | .execute _ => e.state = .kRun → e.tasks.length ≠ e.maxQueueSize →
    (∃ p ∈ e.workers, p ≠ .returned) ∨ e.Crowded
  | .wake w timedOut => timedOut = true → e.workers[w]? = some .waiting → e.state = .kStopped →
    e.tasks ≠ [] → ∃ p ∈ e.workers.set w .returned, p ≠ .returned
  | _ => True

theorem not_allReturned_set {e : Executor τ} {w : Nat} {p q : WorkerPhase τ}
    (h : e.workers[w]? = some p) (hq : q ≠ .returned) :
    ¬ ∀ r ∈ e.workers.set w q, r = .returned := by
  obtain ⟨hlt, _⟩ := List.getElem?_eq_some_iff.mp h
  exact fun hall => hq (hall q (List.mem_set hlt q))

theorem leavesNone_of_step {e : Executor τ} {a : Act τ}
    (h : ∀ e' o, e.step a = some (e', o) → e'.AllReturned → e'.tasks = []) : e.LeavesNone a := by
  cases a with
  | execute task =>
    intro hrun hroom
    by_contra hnot
    rw [not_or] at hnot
    have hexec : e.execute task = ({ e with tasks := e.tasks ++ [task] }, true) := by
      simp [execute, hrun, hroom, hnot.2]
    have hall : e.AllReturned := fun p hp => by
      by_contra hp'
      exact hnot.1 ⟨p, hp, hp'⟩
    have hempty := h { e with tasks := e.tasks ++ [task] } (.executed true)
      (by simp only [Executor.step, hexec]) hall
    simp at hempty
  | wake w timedOut =>
    rintro rfl hphase hstopped htasks
    by_contra hnot
    have hready : ¬ e.Ready := by
      rintro (hs | hempty)
      · simp [hstopped] at hs
      · exact htasks (List.isEmpty_iff.mp hempty)
    have hstep : e.step (.wake w true) = some (e.setPhase w .returned, .quiet) := by
      simp [Executor.step, hphase, wake, hready, dequeue, hstopped]
    have hall : (e.setPhase w .returned).AllReturned := fun p hp => by
      by_contra hp'
      exact hnot ⟨p, hp, hp'⟩
    have hempty := h _ _ hstep hall
    exact htasks hempty
  | lock w => exact trivial
  | finish w => exact trivial
  | stop await => exact trivial
  | goOn call => exact trivial

theorem tasks_nil_of_leavesNone {e e' : Executor τ} {a : Act τ} {o : Outcome τ}
    (h : e.AllReturned → e.tasks = []) (hc : e.LeavesNone a) (hs : e.step a = some (e', o))
    (hall : e'.AllReturned) : e'.tasks = [] := by
  cases moves_of_step hs with
  | refused task => exact h hall
  | accepted task run room =>
    by_cases hcrowded : e.Crowded
    · rw [if_pos hcrowded] at hall
      have := hall .top (by simp [spawn])
      simp at this
    · rw [if_neg hcrowded] at hall
      obtain ⟨p, hp, hne⟩ := (hc run room).resolve_right hcrowded
      exact absurd (hall p hp) hne
  | left act empty spare => exact empty
  | stayed act p hp =>
    obtain ⟨_, phase, _⟩ := act.idle
    have hne : p ≠ .returned := by rcases hp with rfl | rfl <;> simp
    exact absurd hall (not_allReturned_set phase hne)
  | gaveUp phase stopped tasksLeft =>
    obtain ⟨p, hp, hne⟩ := hc rfl phase stopped tasksLeft
    exact absurd (hall p hp) hne
  | dequeued phase run front => exact absurd hall (not_allReturned_set phase (by simp))
  | finished phase => exact absurd hall (not_allReturned_set phase (by simp))
  | stopping act down => exact h hall

end Executor

/-- In a run of a pool every state in which all threads have returned has run
each accepted task exactly once, if and only if no step of the run leaves a task
behind in the state it is taken in. -/
theorem tasks_survive_iff {τ : Type} (low high maxQueue : Nat) (acts : List (Act τ)) :
    (∀ history e, Executor.Reach low high maxQueue history e → history.map Prod.fst <+: acts →
        e.AllReturned → (acceptedTasks history).Perm (ranTasks history)) ↔
      ∀ history e a, Executor.Reach low high maxQueue history e →
        history.map Prod.fst ++ [a] <+: acts → e.LeavesNone a := by
  have hexact : ∀ (e : Executor τ) a, True → (e.AllReturned → e.tasks = []) →
      ((∀ e' o, e.step a = some (e', o) → e'.AllReturned → e'.tasks = []) ↔ e.LeavesNone a) :=
    fun e a _ hp => ⟨Executor.leavesNone_of_step,
      fun hc _ _ hs hall => Executor.tasks_nil_of_leavesNone hp hc hs hall⟩
  have hinitial : (Executor.constructed low high maxQueue : Executor τ).AllReturned →
      (Executor.constructed low high maxQueue : Executor τ).tasks = [] := fun _ => rfl
  rw [← PartialRun.holds_along_iff trivial (fun _ _ _ _ _ _ => trivial) hinitial hexact acts]
  constructor
  · intro h history e reach hpre hall
    exact (Executor.Reach.ran_iff reach hall).mp (h history e reach hpre hall)
  · intro h history e reach hpre hall
    exact (Executor.Reach.ran_iff reach hall).mpr (h history e reach hpre hall)

/-- `Stop` without waiting: the worker that wakes in `kStopped` returns and the
accepted task is never run. -/
theorem stop_loses_task :
    ∃ (history : List (Act Nat × Outcome Nat)) (e : Executor Nat), Executor.Reach 1 1 1 history e ∧
      history.map Prod.fst = [.execute 7, .stop false, .goOn 0, .lock 0, .wake 0 true] ∧
      e.AllReturned ∧ acceptedTasks history = [7] ∧ ranTasks history = [] ∧
      ¬ (acceptedTasks history).Perm (ranTasks history) := by
  let acts : List (Act Nat) := [.execute 7, .stop false, .goOn 0, .lock 0, .wake 0 true]
  have hcheck : ((PartialRun.run Executor.step (Executor.constructed 1 1 1) acts).map fun r =>
      decide ((∀ p ∈ r.1.workers, p = .returned) ∧ acceptedTasks r.2 = [7] ∧ ranTasks r.2 = [])) =
        some true := by decide
  obtain ⟨⟨e, history⟩, hrun, hend⟩ := Option.map_eq_some_iff.mp hcheck
  obtain ⟨hall, haccepted, hran⟩ := of_decide_eq_true hend
  refine ⟨history, e, PartialRun.run_reach hrun, PartialRun.run_calls hrun, hall, haccepted, hran, ?_⟩
  rw [haccepted, hran]
  simp

end Afina
