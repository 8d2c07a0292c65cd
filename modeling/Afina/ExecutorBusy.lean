import Afina.ExecutorQueue
import Mathlib.Algebra.Order.Ring.Int

namespace Afina

/-- The workers that have dequeued a task and have not been back at the top of
their loop since. -/
def busyWorkers {τ : Type} (history : List (Act τ × Outcome τ)) : List Nat :=
  history.foldl (fun busy step =>
    match step with
    | (.wake w _, .dequeued _) => w :: busy
    | (.lock w, _) => busy.erase w
    | _ => busy) []

theorem busyWorkers_snoc {τ : Type} (history : List (Act τ × Outcome τ)) (a : Act τ)
    (o : Outcome τ) :
    busyWorkers (history ++ [(a, o)]) =
      match (a, o) with
      | (.wake w _, .dequeued _) => w :: busyWorkers history
      | (.lock w, _) => (busyWorkers history).erase w
      | _ => busyWorkers history := by
  unfold busyWorkers
  rw [List.foldl_append]
  rfl

namespace Executor

variable {τ : Type}

/-- What `num_working` is for: it is the number of busy workers, and `Execute`
adds a thread exactly when all threads are busy and there may be one more. -/
structure Counted (history : List (Act τ × Outcome τ)) (e : Executor τ) : Prop where
  busy : e.numWorking.toNat = (busyWorkers history).length
  bound : e.numWorking.toNat ≤ e.threads.length
  adds : ∀ task, (e.execute task).2 = true →
    ((e.execute task).1.threads.length = e.threads.length + 1 ↔
      (∀ w ∈ e.threads, w ∈ busyWorkers history) ∧ e.threads.length < e.highWatermark)

/-- No worker has been in its loop so far. -/
structure Unentered (history : List (Act τ × Outcome τ)) (e : Executor τ) : Prop where
  busy : busyWorkers history = []
  counter : e.numWorking = 0
  top : ∀ p ∈ e.workers, p = .top

theorem unentered_constructed (low high maxQueue : Nat) :
    Unentered [] (constructed low high maxQueue : Executor τ) where
  busy := rfl
  counter := rfl
  top := by simp [constructed]

theorem Unentered.phase {history : List (Act τ × Outcome τ)} {e : Executor τ}
    (h : Unentered history e) {w : Nat} {p : WorkerPhase τ} (hp : e.workers[w]? = some p) :
    p = .top :=
  h.top p (List.mem_of_getElem? hp)

/-- The counter starts at 0, so the first critical section of any worker takes
it below zero. -/
theorem Unentered.lock_wraps {history : List (Act τ × Outcome τ)} {e e' : Executor τ} {w : Nat}
    {o : Outcome τ} (h : Unentered history e) (hs : e.step (.lock w) = some (e', o)) :
    e'.numWorking.toNat = 2 ^ 64 - 1 ∧ busyWorkers (history ++ [(.lock w, o)]) = [] := by
  refine ⟨?_, by simp [busyWorkers_snoc, h.busy]⟩
  have hwrapped : e'.numWorking = e.numWorking - 1 := by
    cases moves_of_step hs with
    | left act empty spare => cases act; rfl
    | stayed act p phase => cases act; rfl
    | stopping act down => simp at act
  rw [hwrapped, h.counter]
  rfl

theorem Unentered.step {history : List (Act τ × Outcome τ)} {e e' : Executor τ} {a : Act τ}
    {o : Outcome τ} (h : Unentered history e) (hs : e.step a = some (e', o))
    (hlock : ∀ w, a ≠ .lock w) : Unentered (history ++ [(a, o)]) e' := by
  cases moves_of_step hs with
  | refused task => exact ⟨by simp [busyWorkers_snoc, h.busy], h.counter, h.top⟩
  | accepted task run room =>
    refine ⟨by simp [busyWorkers_snoc, h.busy], ?_, ?_⟩
    · split <;> exact h.counter
    · split
      next =>
        intro p hp
        rcases List.mem_append.mp hp with hp | hp
        · exact h.top p hp
        · exact List.mem_singleton.mp hp
      next => exact h.top
  | left act empty spare =>
    cases act with
    | lock phase => exact absurd rfl (hlock _)
    | wake phase timedOut => cases h.phase phase
  | stayed act p hp =>
    cases act with
    | lock phase => exact absurd rfl (hlock _)
    | wake phase timedOut => cases h.phase phase
  | gaveUp phase stopped tasksLeft => cases h.phase phase
  | dequeued phase run front => cases h.phase phase
  | finished phase => cases h.phase phase
  | stopping act down =>
    refine ⟨?_, h.counter, h.top⟩
    obtain ⟨await, rfl⟩ | ⟨call, rfl⟩ := act <;> simp [busyWorkers_snoc, h.busy]

theorem Unentered.counted {history : List (Act τ × Outcome τ)} {e : Executor τ}
    (h : Unentered history e) : Counted history e where
  busy := by rw [h.counter, h.busy]; rfl
  bound := by rw [h.counter]; exact Nat.zero_le _
  adds := by
    intro task hok
    have hcrowded : e.Crowded ↔ (∀ w ∈ e.threads, w ∈ busyWorkers history) ∧
        e.threads.length < e.highWatermark := by
      have hnone : (∀ w ∈ e.threads, w ∈ busyWorkers history) ↔ e.threads.length = 0 := by
        simp [h.busy, List.eq_nil_iff_forall_not_mem]
      rw [hnone, Crowded, h.counter]
      exact and_congr_left fun _ => eq_comm
    rw [← hcrowded]
    unfold execute at hok ⊢
    split at hok
    next => cases hok
    next hrun =>
      split at hok
      next => cases hok
      next hroom =>
        rw [if_neg hrun, if_neg hroom]
        by_cases hc : e.Crowded
        · simp [hc, spawn]
        · simp [hc]

end Executor

/-- In a run of a pool the counter is right in every state reached if and only if
no worker thread gets to the first line of its loop. -/
theorem busy_counted_iff {τ : Type} (low high maxQueue : Nat) (acts : List (Act τ)) :
    (∀ history e, Executor.Reach low high maxQueue history e → history.map Prod.fst <+: acts →
        Executor.Counted history e) ↔
      ∀ history e w, Executor.Reach low high maxQueue history e →
        history.map Prod.fst ++ [.lock w] <+: acts → e.workers[w]? ≠ some .top := by
  constructor
  · intro h
    -- a run all of whose states are counted has not entered any loop
    have hunentered : ∀ history e, Executor.Reach low high maxQueue history e →
        history.map Prod.fst <+: acts → Executor.Unentered history e := by
      intro history e reach hpre
      refine reach.invariant_within hpre (Executor.unentered_constructed low high maxQueue) ?_
      intro before s a t o reach hnext hbefore hs
      refine hbefore.step hs ?_
      rintro w rfl
      obtain ⟨hwrapped, hnone⟩ := hbefore.lock_wraps hs
      have hcounted := (h _ t (.next reach hs) (by simpa using hnext)).busy
      rw [hwrapped, hnone] at hcounted
      simp at hcounted
    intro history e w reach hpre htop
    have hs : e.step (.lock w) = some (e.lock w, .quiet) := by simp [Executor.step, htop]
    have hnext : (history ++ [(Act.lock w, Outcome.quiet)]).map Prod.fst <+: acts := by
      simpa using hpre
    obtain ⟨hwrapped, hnone⟩ :=
      (hunentered history e reach (List.IsPrefix.trans (by simp) hnext)).lock_wraps hs
    have hcounted := (h _ _ (.next reach hs) hnext).busy
    rw [hwrapped, hnone] at hcounted
    simp at hcounted
  · intro h history e reach hpre
    refine Executor.Unentered.counted ?_
    refine reach.invariant_within hpre (Executor.unentered_constructed low high maxQueue) ?_
    intro before s a t o reach hnext hbefore hs
    refine hbefore.step hs ?_
    rintro w rfl
    refine h before s w reach hnext ?_
    by_contra hphase
    simp [Executor.step] at hs

/-- The only worker enters its loop and the counter wraps; it takes a task, the
counter is 0, and `Execute` sees an idle pool and adds no thread. -/
theorem first_lock_wraps :
    (∃ (history : List (Act Nat × Outcome Nat)) (e : Executor Nat), Executor.Reach 1 2 2 history e ∧
      history.map Prod.fst = [.lock 0] ∧ busyWorkers history = [] ∧
      e.numWorking.toNat = 2 ^ 64 - 1 ∧ ¬ Executor.Counted history e) ∧
    ∃ (history : List (Act Nat × Outcome Nat)) (e : Executor Nat), Executor.Reach 1 2 2 history e ∧
      history.map Prod.fst = [.execute 7, .lock 0, .wake 0 true] ∧ busyWorkers history = [0] ∧
      e.threads = [0] ∧ e.numWorking = 0 ∧ e.execute 8 = ({ e with tasks := [8] }, true) := by
  constructor
  · have hcheck : ((PartialRun.run Executor.step (Executor.constructed 1 2 2)
        [Act.lock (τ := Nat) 0]).map fun r =>
          decide (busyWorkers r.2 = [] ∧ r.1.numWorking.toNat = 2 ^ 64 - 1)) = some true := by decide
    obtain ⟨⟨e, history⟩, hrun, hend⟩ := Option.map_eq_some_iff.mp hcheck
    obtain ⟨hbusy, hcounter⟩ := of_decide_eq_true hend
    refine ⟨history, e, PartialRun.run_reach hrun, PartialRun.run_calls hrun, hbusy, hcounter, ?_⟩
    intro hcounted
    have hequal := hcounted.busy
    rw [hbusy, hcounter] at hequal
    simp at hequal
  · have hcheck : ((PartialRun.run Executor.step (Executor.constructed 1 2 2)
        [Act.execute 7, .lock 0, .wake 0 true]).map fun r =>
          decide (busyWorkers r.2 = [0] ∧ r.1.threads = [0] ∧ r.1.numWorking = 0 ∧
            r.1.execute 8 = ({ r.1 with tasks := [8] }, true))) = some true := by decide
    obtain ⟨⟨e, history⟩, hrun, hend⟩ := Option.map_eq_some_iff.mp hcheck
    exact ⟨history, e, PartialRun.run_reach hrun, PartialRun.run_calls hrun, of_decide_eq_true hend⟩

end Afina
