import Afina.ExecutorStop

namespace Afina

namespace Executor

variable {τ : Type}

/-- While the pool runs, no `Stop` was called, and the threads of the vector are
those that have not returned. -/
structure Staffed (e : Executor τ) : Prop where
  distinct : e.threads.Nodup
  known : ∀ w ∈ e.threads, w < e.workers.length
  present : ∀ w ∈ e.threads, e.workers[w]? ≠ some .returned
  stops : e.stops = []
  joined : e.joined = []

theorem constructed_staffed (low high maxQueue : Nat) :
    (constructed low high maxQueue : Executor τ).Staffed where
  distinct := List.nodup_range
  known w hw := by simpa [constructed] using hw
  present w hw := by simp [constructed, List.getElem?_replicate]
  stops := rfl
  joined := rfl

theorem present_set {e : Executor τ} (h : e.Staffed) (w : Nat) {p : WorkerPhase τ}
    (hp : p ≠ .returned) :
    (∀ w' ∈ e.threads, w' < (e.workers.set w p).length) ∧
      ∀ w' ∈ e.threads, (e.workers.set w p)[w']? ≠ some .returned := by
  refine ⟨fun w' hw' => ?_, fun w' hw' => ?_⟩
  · rw [List.length_set]
    exact h.known w' hw'
  · rw [List.getElem?_set]
    split
    next =>
      split
      next => exact fun he => hp (Option.some.inj he)
      next => simp
    next => exact h.present w' hw'

/-- One step of a pool that runs, and goes on to run. -/
theorem Staffed.step {e e' : Executor τ} (h : e.Staffed) (hrun : e.state = .kRun) {a : Act τ}
    {o : Outcome τ} (hrun' : e'.state = .kRun) (hs : e.step a = some (e', o)) : e'.Staffed := by
  cases moves_of_step hs with
  | refused task => exact h
  | accepted task run room =>
    split
    next =>
      refine ⟨?_, fun w hw => ?_, fun w hw => ?_, h.stops, h.joined⟩
      · refine List.nodup_append.mpr ⟨h.distinct, by simp, ?_⟩
        intro w hw w' hw'
        have := h.known w hw
        rw [List.mem_singleton.mp hw']
        omega
      · simp only [spawn, List.length_append, List.length_singleton]
        rcases List.mem_append.mp hw with hw | hw
        · have := h.known w hw
          omega
        · rw [List.mem_singleton.mp hw]
          omega
      · simp only [spawn]
        rcases List.mem_append.mp hw with hw | hw
        · rw [List.getElem?_append_left (h.known w hw)]
          exact h.present w hw
        · rw [List.mem_singleton.mp hw, List.getElem?_append_right (Nat.le_refl _)]
          simp
    next => exact ⟨h.distinct, h.known, h.present, h.stops, h.joined⟩
  | @left w _ _ act empty spare =>
    refine ⟨h.distinct.erase w, fun w' hw' => ?_, fun w' hw' => ?_, h.stops, h.joined⟩
    · dsimp only
      rw [List.length_set]
      exact h.known w' (List.mem_of_mem_erase hw')
    · obtain ⟨hne, hmem⟩ := h.distinct.mem_erase_iff.mp hw'
      dsimp only
      rw [List.getElem?_set_ne hne.symm]
      exact h.present w' hmem
  | @stayed w _ _ act q hq =>
    have hset := present_set h w (show q ≠ .returned by rcases hq with rfl | rfl <;> simp)
    exact ⟨h.distinct, hset.1, hset.2, h.stops, h.joined⟩
  | gaveUp phase stopped tasksLeft => cases stopped.symm.trans hrun
  | @dequeued w phase run task rest front =>
    have hset := present_set h w (p := .running task) (by simp)
    exact ⟨h.distinct, hset.1, hset.2, h.stops, h.joined⟩
  | @finished w task phase =>
    have hset := present_set h w (p := .top) (by simp)
    exact ⟨h.distinct, hset.1, hset.2, h.stops, h.joined⟩
  | stopping act down =>
    rcases act with ⟨await, rfl⟩ | ⟨call, rfl⟩
    · cases hs
      simp [hrun] at hrun'
    · simp [Executor.step, goOn, h.stops] at hs

/-- A pool that runs has run from its start on. -/
theorem run_before {e e' : Executor τ} {a : Act τ} {o : Outcome τ} (hs : e.step a = some (e', o))
    (hrun : e'.state = .kRun) : e.state = .kRun := by
  cases moves_of_step hs with
  | refused task => exact hrun
  | accepted task run room => exact run
  | left act empty spare => exact hrun
  | stayed act q hq => exact hrun
  | gaveUp phase stopped tasksLeft => exact hrun
  | dequeued phase run front => exact run
  | finished phase => exact hrun
  | stopping act down => exact down hrun

theorem Reach.staffed {low high maxQueue : Nat} {history : List (Act τ × Outcome τ)}
    {e : Executor τ} (reach : Executor.Reach low high maxQueue history e) (hrun : e.state = .kRun) :
    e.Staffed := by
  induction reach with
  | start => exact constructed_staffed low high maxQueue
  | next _ hs ih =>
    have hbefore := run_before hs hrun
    exact (ih hbefore).step hbefore hrun hs

/-- The pool is stopped with tasks in its queue, and the call waits for the first of
the threads that were there. -/
structure Hangs (e u : Executor τ) : Prop where
  tasks : u.tasks = e.tasks
  state : u.state = .kStopping
  threads : u.threads = e.threads
  joined : u.joined = []
  waits : u.stops = [.checking 0] ∨ ∃ w, e.threads.head? = some w ∧ u.stops = [.joining 0 w]
  returned : ∀ w : Nat, u.workers[w]? = some .returned → e.workers[w]? = some .returned

theorem Hangs.set {e u : Executor τ} (h : Hangs e u) (w : Nat) {p : WorkerPhase τ} (n : UInt64)
    (hp : p ≠ .returned) :
    Hangs e { u with numWorking := n, workers := u.workers.set w p } := by
  refine ⟨h.tasks, h.state, h.threads, h.joined, h.waits, fun w' hw' => ?_⟩
  dsimp only at hw'
  rw [List.getElem?_set] at hw'
  split at hw'
  next =>
    split at hw'
    next => exact absurd (Option.some.inj hw') hp
    next => cases hw'
  next => exact h.returned w' hw'

/-- The loop of `Stop` goes as far as its first `join`, which does not come back. -/
theorem Hangs.goOn {e u u' : Executor τ} (h : Hangs e u) (hstaffed : e.Staffed)
    (hthreads : e.threads ≠ []) {call : Nat} (hs : u.goOn call = some u') : Hangs e u' := by
  obtain ⟨w, rest, hw⟩ := List.exists_cons_of_ne_nil hthreads
  have hpresent := hstaffed.present w (by rw [hw]; exact List.mem_cons_self)
  have hfirst : u.threads[0]? = some w := by
    rw [h.threads, hw]
    rfl
  cases call with
  | succ call =>
    rcases h.waits with hstops | ⟨_, _, hstops⟩ <;> simp [Executor.goOn, hstops] at hs
  | zero =>
    rcases h.waits with hstops | ⟨w', hw', hstops⟩
    · simp only [Executor.goOn, hstops, List.getElem?_cons_zero, hfirst, h.joined,
        List.not_mem_nil, if_false, Option.some.injEq] at hs
      subst hs
      exact ⟨h.tasks, h.state, h.threads, rfl, Or.inr ⟨w, by rw [hw]; rfl, rfl⟩, h.returned⟩
    · rw [hw] at hw'
      cases Option.some.inj hw'
      simp only [Executor.goOn, hstops, List.getElem?_cons_zero] at hs
      split at hs
      next hreturned => exact absurd (h.returned w hreturned) hpresent
      next => cases hs

theorem Hangs.step {e u u' : Executor τ} (h : Hangs e u) (hstaffed : e.Staffed)
    (hthreads : e.threads ≠ []) (htasks : e.tasks ≠ []) {a : Act τ} {o : Outcome τ}
    (hno : ∀ await, a ≠ .stop await) (hs : u.step a = some (u', o)) :
    Hangs e u' ∧ (o = .quiet ∨ o = .executed false ∨ ∃ task, o = .ran task) := by
  have hstate := h.state
  cases moves_of_step hs with
  | refused task => exact ⟨h, Or.inr (Or.inl rfl)⟩
  | accepted task run room => cases run.symm.trans hstate
  | left act empty spare => exact absurd (h.tasks.symm.trans empty) htasks
  | @stayed w _ n act q hq =>
    have hset := h.set w n (show q ≠ .returned by rcases hq with rfl | rfl <;> simp)
    exact ⟨hset, Or.inl rfl⟩
  | gaveUp phase stopped tasksLeft => cases stopped.symm.trans hstate
  | dequeued phase run front => cases run.symm.trans hstate
  | @finished w task phase =>
    have hset := h.set w u.numWorking (p := .top) (by simp)
    exact ⟨hset, Or.inr (Or.inr ⟨task, rfl⟩)⟩
  | stopping act down =>
    rcases act with ⟨await, rfl⟩ | ⟨call, rfl⟩
    · exact absurd rfl (hno await)
    · obtain ⟨t, ht, he⟩ := Option.map_eq_some_iff.mp hs
      cases he
      exact ⟨h.goOn hstaffed hthreads ht, Or.inl rfl⟩

theorem Hangs.run {e u last : Executor τ} (h : Hangs e u) (hstaffed : e.Staffed)
    (hthreads : e.threads ≠ []) (htasks : e.tasks ≠ []) {acts : List (Act τ)}
    {history : List (Act τ × Outcome τ)} (hno : ∀ a ∈ acts, ∀ await, a ≠ .stop await)
    (hr : PartialRun.run Executor.step u acts = some (last, history)) :
    Hangs e last ∧ acceptedTasks history = [] ∧ dequeuedTasks history = [] := by
  induction acts generalizing u history with
  | nil =>
    cases Option.some.inj hr
    exact ⟨h, rfl, rfl⟩
  | cons a rest ih =>
    obtain ⟨u', o, later, hs, hrest, rfl⟩ := PartialRun.run_cons_eq_some hr
    obtain ⟨hnext, ho⟩ := h.step hstaffed hthreads htasks (hno a List.mem_cons_self) hs
    obtain ⟨hlast, haccepted, hdequeued⟩ := ih hnext
      (fun a' ha' => hno a' (List.mem_cons_of_mem a ha')) hrest
    refine ⟨hlast, ?_, ?_⟩
    · rcases ho with rfl | rfl | ⟨task, rfl⟩ <;> cases a <;>
        simpa [acceptedTasks] using haccepted
    · rcases ho with rfl | rfl | ⟨task, rfl⟩ <;> simpa [dequeuedTasks] using hdequeued

end Executor

/-- `Stop(true)` on a pool that runs, has a thread and has tasks in its queue: however
the threads go on, and as long as nobody calls `Stop` once more, the call does not come
back, no worker takes a task or returns, and `Execute` accepts none. -/
theorem stop_with_tasks_hangs {τ : Type} {low high maxQueue : Nat}
    {history : List (Act τ × Outcome τ)} {e : Executor τ}
    (reach : Executor.Reach low high maxQueue history e) (running : e.state = .kRun)
    (threads : e.threads ≠ []) (tasks : e.tasks ≠ []) {acts : List (Act τ)}
    (noStop : ∀ a ∈ acts, ∀ await, a ≠ .stop await) {u : Executor τ}
    {later : List (Act τ × Outcome τ)}
    (runs : PartialRun.run Executor.step (e.stop true) acts = some (u, later)) :
    u.stops ≠ [.done] ∧ u.state = .kStopping ∧ u.tasks = e.tasks ∧ u.threads = e.threads ∧
      acceptedTasks later = [] ∧ dequeuedTasks later = [] ∧
      ∀ w : Nat, u.workers[w]? = some .returned → e.workers[w]? = some .returned := by
  have hstaffed := Executor.Reach.staffed reach running
  have hstart : Executor.Hangs e (e.stop true) := by
    refine ⟨rfl, ?_, rfl, hstaffed.joined, Or.inl ?_, fun _ hw => hw⟩
    · simp [Executor.stop, running]
    · simp [Executor.stop, hstaffed.stops]
  obtain ⟨hend, haccepted, hdequeued⟩ := hstart.run hstaffed threads tasks noStop runs
  refine ⟨?_, hend.state, hend.tasks, hend.threads, haccepted, hdequeued, hend.returned⟩
  rcases hend.waits with hstops | ⟨w, _, hstops⟩ <;> simp [hstops]

/-- One thread and one task: the thread goes round its loop. -/
theorem stop_with_tasks_hangs_one :
    let acts : List (Act Nat) := [.goOn 0, .lock 0, .lock 0, .execute 8, .lock 0]
    ∃ history e u later, Executor.Reach 1 2 3 history e ∧
      history.map Prod.fst = [Act.execute 7] ∧
      PartialRun.run Executor.step (e.stop true) acts = some (u, later) ∧
      u.stops = [.joining 0 0] ∧
      (u.stops ≠ [.done] ∧ u.state = .kStopping ∧ u.tasks = e.tasks ∧ u.threads = e.threads ∧
        acceptedTasks later = [] ∧ dequeuedTasks later = [] ∧
        ∀ w : Nat, u.workers[w]? = some .returned → e.workers[w]? = some .returned) := by
  intro acts
  obtain ⟨history, e, reach, hcalls, hrun, hthreads, htasks, hend⟩ := PartialRun.reach_of_check
    Executor.step (Executor.constructed 1 2 3) [Act.execute 7]
    (fun e => e.state = .kRun ∧ e.threads ≠ [] ∧ e.tasks ≠ [] ∧
      ((PartialRun.run Executor.step (e.stop true) acts).map fun r => r.1.stops) =
        some [.joining 0 0]) (by decide)
  obtain ⟨⟨u, later⟩, hruns, hstops⟩ := Option.map_eq_some_iff.mp hend
  have hno : ∀ a ∈ acts, ∀ await, a ≠ .stop await := by decide
  exact ⟨history, e, u, later, reach, hcalls, hruns, hstops,
    stop_with_tasks_hangs reach hrun hthreads htasks hno hruns⟩

namespace Executor

variable {τ : Type}

/-- Without a further call the pool can get to a state with this queue. -/
def Gets (e : Executor τ) (tasks : List τ) : Prop :=
  ∃ acts u later, PartialRun.run Executor.step e acts = some (u, later) ∧ u.state = .kRun ∧
    u.threads = e.threads ∧ u.tasks = tasks ∧ acceptedTasks later = []

theorem Gets.of_step {e e' : Executor τ} {a : Act τ} {o : Outcome τ}
    (hs : e.step a = some (e', o)) (ho : ∀ ok, o ≠ .executed ok) (hthreads : e'.threads = e.threads)
    {tasks : List τ} (h : e'.Gets tasks) : e.Gets tasks := by
  obtain ⟨acts, u, later, hrun, hstate, hu, htasks, hnone⟩ := h
  refine ⟨a :: acts, u, (a, o) :: later, PartialRun.run_cons hs hrun, hstate, hu.trans hthreads,
    htasks, ?_⟩
  cases o with
  | executed ok => exact absurd rfl (ho ok)
  | dequeued task => cases a <;> simpa [acceptedTasks] using hnone
  | ran task => cases a <;> simpa [acceptedTasks] using hnone
  | quiet => cases a <;> simpa [acceptedTasks] using hnone

theorem Gets.refl {e : Executor τ} (hrun : e.state = .kRun) : e.Gets e.tasks :=
  ⟨[], e, [], rfl, hrun, rfl, rfl, rfl⟩

/-- When its idle time is over a waiting worker takes the first task. -/
theorem gets_of_waiting {e : Executor τ} (hrun : e.state = .kRun) {w : Nat}
    (phase : e.workers[w]? = some .waiting) {task : τ} {rest : List τ}
    (front : e.tasks = task :: rest) : e.Gets rest := by
  have hs : e.step (.wake w true) = some ({ e with
      numWorking := e.numWorking + 1, tasks := rest
      workers := e.workers.set w (.running task) }, .dequeued task) := by
    simp [Executor.step, phase, wake, Ready, dequeue, hrun, front, setPhase]
  exact .of_step hs (by simp) rfl (.refl hrun)

theorem gets_of_top {e : Executor τ} (hrun : e.state = .kRun) {w : Nat}
    (phase : e.workers[w]? = some .top) {task : τ} {rest : List τ}
    (front : e.tasks = task :: rest) : e.Gets rest := by
  have hs : e.step (.lock w) = some ({ e with
      numWorking := e.numWorking - 1, workers := e.workers.set w .waiting }, .quiet) := by
    simp [Executor.step, phase, lock, Ready, hrun, front, setPhase]
  have hphase : (e.workers.set w .waiting)[w]? = some .waiting :=
    List.getElem?_set_self (List.getElem?_eq_some_iff.mp phase).1
  exact .of_step hs (by simp) rfl (gets_of_waiting
    (e := { e with numWorking := e.numWorking - 1, workers := e.workers.set w .waiting })
    hrun hphase front)

theorem gets_of_running {e : Executor τ} (hrun : e.state = .kRun) {w : Nat} {task' : τ}
    (phase : e.workers[w]? = some (.running task')) {task : τ} {rest : List τ}
    (front : e.tasks = task :: rest) : e.Gets rest := by
  have hs : e.step (.finish w) =
      some ({ e with workers := e.workers.set w .top }, .ran task') := by
    simp [Executor.step, phase, setPhase]
  have hphase : (e.workers.set w .top)[w]? = some .top :=
    List.getElem?_set_self (List.getElem?_eq_some_iff.mp phase).1
  exact .of_step hs (by simp) rfl
    (gets_of_top (e := { e with workers := e.workers.set w .top }) hrun hphase front)

/-- A thread of the vector can take the first task. -/
theorem Staffed.gets {e : Executor τ} (h : e.Staffed) (hrun : e.state = .kRun)
    (hthreads : e.threads ≠ []) {task : τ} {rest : List τ} (front : e.tasks = task :: rest) :
    e.Gets rest := by
  obtain ⟨w, others, hw⟩ := List.exists_cons_of_ne_nil hthreads
  have hmem : w ∈ e.threads := by
    rw [hw]
    exact List.mem_cons_self
  obtain ⟨p, hphase⟩ : ∃ p, e.workers[w]? = some p :=
    ⟨_, List.getElem?_eq_getElem (h.known w hmem)⟩
  have hpresent := h.present w hmem
  cases p with
  | top => exact gets_of_top hrun hphase front
  | waiting => exact gets_of_waiting hrun hphase front
  | running task' => exact gets_of_running hrun hphase front
  | returned => exact absurd hphase hpresent

theorem acceptedTasks_append (first second : List (Act τ × Outcome τ)) :
    acceptedTasks (first ++ second) = acceptedTasks first ++ acceptedTasks second :=
  List.filterMap_append

/-- A pool that runs and has a thread can take all its tasks. -/
theorem Reach.gets_none {low high maxQueue : Nat} {history : List (Act τ × Outcome τ)}
    {e : Executor τ} (reach : Executor.Reach low high maxQueue history e) (hrun : e.state = .kRun)
    (hthreads : e.threads ≠ []) : e.Gets [] := by
  generalize htasks : e.tasks = tasks
  induction tasks generalizing e history with
  | nil =>
    rw [← htasks]
    exact .refl hrun
  | cons task rest ih =>
    obtain ⟨acts, u, later, hfirst, hstate, hu, hrest, hnone⟩ :=
      (Reach.staffed reach hrun).gets hrun hthreads htasks
    have hreach := PartialRun.Reach.of_run reach hfirst
    obtain ⟨acts', u', later', hsecond, hstate', hu', hempty, hnone'⟩ :=
      ih hreach hstate (by rw [hu]; exact hthreads) hrest
    refine ⟨acts ++ acts', u', later ++ later', PartialRun.run_append hfirst hsecond, hstate',
      hu'.trans hu, hempty, ?_⟩
    rw [acceptedTasks_append, hnone, hnone', List.append_nil]

theorem exists_running {e : Executor τ} (h : e.held ≠ []) :
    ∃ (w : Nat) (task : τ), e.workers[w]? = some (.running task) := by
  obtain ⟨task, hmem⟩ := List.exists_mem_of_ne_nil _ h
  obtain ⟨p, hp, htask⟩ := List.mem_filterMap.mp hmem
  obtain ⟨w, hw⟩ := List.mem_iff_getElem?.mp hp
  cases p with
  | running task' => exact ⟨w, task', hw⟩
  | top => cases htask
  | waiting => cases htask
  | returned => cases htask

/-- The tasks that are being run can come to their end, with nothing else done. -/
theorem exists_idle (e : Executor τ) : ∃ acts u later,
    PartialRun.run Executor.step e acts = some (u, later) ∧ u.state = e.state ∧ u.tasks = e.tasks ∧
      u.held = [] ∧ acceptedTasks later = [] := by
  induction hn : e.held.length generalizing e with
  | zero => exact ⟨[], e, [], rfl, rfl, rfl, List.eq_nil_of_length_eq_zero hn, rfl⟩
  | succ n ih =>
    obtain ⟨w, task, phase⟩ := exists_running (e := e) (fun hnil => by simp [hnil] at hn)
    obtain ⟨rest, hold, hnew⟩ := held_set phase
    have hs : e.step (.finish w) =
        some ({ e with workers := e.workers.set w .top }, .ran task) := by
      simp [Executor.step, phase, setPhase]
    have hless : ({ e with workers := e.workers.set w .top } : Executor τ).held.length = n := by
      have hbefore := hold.length_eq
      have hafter := (hnew .top).length_eq
      simp only [WorkerPhase.task, Option.toList_some, Option.toList_none, List.length_append,
        List.length_singleton, List.length_nil] at hbefore hafter
      simp only [Executor.held] at hn ⊢
      omega
    obtain ⟨acts, u, later, hrun, hstate, htasks, hheld, hnone⟩ := ih _ hless
    refine ⟨.finish w :: acts, u, (.finish w, .ran task) :: later, PartialRun.run_cons hs hrun,
      hstate, htasks, hheld, ?_⟩
    simpa [acceptedTasks] using hnone

end Executor

/-- From every state of a pool that runs and has a thread, the workers alone can come
to one in which every task ever accepted has been run, and the pool still runs. -/
theorem pool_can_finish {τ : Type} {low high maxQueue : Nat} {history : List (Act τ × Outcome τ)}
    {e : Executor τ} (reach : Executor.Reach low high maxQueue history e) (running : e.state = .kRun)
    (threads : e.threads ≠ []) :
    ∃ acts u later, PartialRun.run Executor.step e acts = some (u, later) ∧ u.state = .kRun ∧
      acceptedTasks later = [] ∧
      (acceptedTasks history).Perm (ranTasks (history ++ later)) := by
  obtain ⟨acts, u, later, hfirst, hstate, _, hempty, hnone⟩ :=
    Executor.Reach.gets_none reach running threads
  obtain ⟨acts', u', later', hsecond, hstate', htasks, hheld, hnone'⟩ := Executor.exists_idle u
  have hrun := PartialRun.run_append hfirst hsecond
  have hreach := PartialRun.Reach.of_run reach hrun
  have haccepted : acceptedTasks (later ++ later') = [] := by
    rw [Executor.acceptedTasks_append, hnone, hnone', List.append_nil]
  refine ⟨acts ++ acts', u', later ++ later', hrun, hstate'.trans hstate, haccepted, ?_⟩
  have hfifo := Executor.Reach.fifo hreach
  have hran := Executor.Reach.held hreach
  rw [Executor.acceptedTasks_append, haccepted, List.append_nil, htasks, hempty,
    List.append_nil] at hfifo
  rw [hheld, List.append_nil] at hran
  rw [hfifo]
  exact hran

/-- One thread with a task, and two more tasks in the queue. -/
theorem pool_can_finish_three :
    ∃ history e acts u later, Executor.Reach 1 1 3 history e ∧
      history.map Prod.fst =
        [Act.execute 7, .lock 0, .wake 0 true, .execute 8, .execute 9] ∧
      PartialRun.run Executor.step e acts = some (u, later) ∧ u.state = .kRun ∧
      acceptedTasks later = [] ∧ (acceptedTasks history).Perm (ranTasks (history ++ later)) := by
  obtain ⟨history, e, reach, hcalls, hrun, hthreads⟩ := PartialRun.reach_of_check
    Executor.step (Executor.constructed 1 1 3)
    [Act.execute 7, .lock 0, .wake 0 true, .execute 8, .execute 9]
    (fun e => e.state = .kRun ∧ e.threads ≠ []) (by decide)
  obtain ⟨acts, u, later, hfinish⟩ := pool_can_finish reach hrun hthreads
  exact ⟨history, e, acts, u, later, reach, hcalls, hfinish⟩

end Afina
