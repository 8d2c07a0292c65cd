import Afina.ExecutorStop
import Mathlib.Data.List.Nodup

namespace Afina

/-- Where a pool thread is in `RunConnection`: not in it, before the insertion
into `connections`, in the loop, between `close` and the removal, or at its end. -/
inductive RunPhase
  | idle
  | entered (socket : Int)
  | serving (socket : Int)
  | closing
  | finished
deriving DecidableEq, Repr

namespace RunPhase

/-- The socket that the thread has and has not closed. -/
def socket : RunPhase → Option Int
  | .entered socket => some socket
  | .serving socket => some socket
  | _ => none

def isIdle : RunPhase → Bool
  | .idle => true
  | _ => false

def isEntered : RunPhase → Bool
  | .entered _ => true
  | _ => false

/-- The thread is in `connections`. -/
def inside : RunPhase → Bool
  | .serving _ => true
  | .closing => true
  | _ => false

end RunPhase

/-- `Blocking::ServerImpl`: the pool of the acceptor with the sockets as its
tasks, each pool thread's place in `RunConnection`, the set of threads, and
whether the acceptor is in its loop. -/
structure BlockingServer where
  maxWorkers : Nat
  pool : Executor Int
  phases : List RunPhase
  connections : List Nat
  accepting : Bool
deriving DecidableEq, Repr

/-- The steps: the acceptor takes a connection or leaves its loop, the pool makes
one of its own, or a thread in `RunConnection` goes on. -/
inductive ServerAct
  | accept (socket : Int)
  | leave
  | pool (a : Act Int)
  | insert (worker : Nat)
  | close (worker : Nat)
  | erase (worker : Nat)
deriving DecidableEq, Repr

namespace BlockingServer

def started (maxWorkers : Nat) : BlockingServer :=
  ⟨maxWorkers, .constructed 10 20 60, List.replicate 10 .idle, [], true⟩

/-- `RunAcceptor` behind `accept`, with `connections_mutex`. -/
def accept (s : BlockingServer) (socket : Int) : BlockingServer :=
  if s.connections.length < s.maxWorkers then
    let (pool, ok) := s.pool.execute socket
    if ok then
      { s with
        pool := pool
        phases := s.phases ++ List.replicate (pool.workers.length - s.phases.length) .idle }
    else { s with accepting := false }
  else s

/-- A step of the pool: a thread that takes a task enters `RunConnection`, and its
task is over when `RunConnection` is. `Stop` is called by the destructor. -/
def poolStep (s : BlockingServer) : Act Int → Option BlockingServer
  | .execute _ => none
  | .lock w => (s.pool.step (.lock w)).map fun r => { s with pool := r.1 }
  | .wake w timedOut =>
    (s.pool.step (.wake w timedOut)).map fun r =>
      match r.2 with
      | .dequeued socket => { s with pool := r.1, phases := s.phases.set w (.entered socket) }
      | _ => { s with pool := r.1 }
  | .finish w =>
    if s.phases[w]? = some .finished then
      (s.pool.step (.finish w)).map fun r => { s with pool := r.1, phases := s.phases.set w .idle }
    else none
  | .stop await =>
    if s.accepting then none
    else (s.pool.step (.stop await)).map fun r => { s with pool := r.1 }
  | .goOn call => (s.pool.step (.goOn call)).map fun r => { s with pool := r.1 }

/-- `RunConnection` in its critical sections and at its `close`. Its exceptions
end the process. -/
def step (s : BlockingServer) : ServerAct → Option (BlockingServer × Unit)
  | .accept socket => if s.accepting then some (s.accept socket, ()) else none
  | .leave => if s.accepting then some ({ s with accepting := false }, ()) else none
  | .pool a => (s.poolStep a).map (·, ())
  | .insert w =>
    match s.phases[w]? with
    | some (.entered socket) =>
      some ({ s with
        phases := s.phases.set w (.serving socket)
        connections := s.connections.insert w }, ())
    | _ => none
  | .close w =>
    match s.phases[w]? with
    | some (.serving _) => some ({ s with phases := s.phases.set w .closing }, ())
    | _ => none
  | .erase w =>
    match s.phases[w]? with
    | some .closing =>
      some ({ s with
        phases := s.phases.set w .finished
        connections := s.connections.erase w }, ())
    | _ => none

abbrev Reach (maxWorkers : Nat) : List (ServerAct × Unit) → BlockingServer → Prop :=
  PartialRun.Reach step (started maxWorkers)

/-- The client sockets that were handed over and are not closed. -/
def openSockets (s : BlockingServer) : List Int :=
  s.pool.tasks ++ s.phases.filterMap RunPhase.socket

/-- Of these the ones whose thread is not in `connections` yet. -/
def waiting (s : BlockingServer) : Nat := s.pool.tasks.length + s.phases.countP RunPhase.isEntered

def Limited (s : BlockingServer) : Prop :=
  s.openSockets.length ≤ s.maxWorkers ∧ s.connections.length ≤ s.maxWorkers

/-- A socket that is handed over finds room, also when those on their way to
`connections` are counted. -/
def HasRoom (s : BlockingServer) : ServerAct → Prop
  | .accept socket => s.accepting = true → s.connections.length < s.maxWorkers →
      (s.pool.execute socket).2 = true → s.waiting + s.connections.length < s.maxWorkers
  | _ => True

instance (s : BlockingServer) (a : ServerAct) : Decidable (s.HasRoom a) :=
  match a with
  | .accept socket => inferInstanceAs (Decidable (s.accepting = true →
      s.connections.length < s.maxWorkers → (s.pool.execute socket).2 = true →
      s.waiting + s.connections.length < s.maxWorkers))
  | .leave => inferInstanceAs (Decidable True)
  | .pool _ => inferInstanceAs (Decidable True)
  | .insert _ => inferInstanceAs (Decidable True)
  | .close _ => inferInstanceAs (Decidable True)
  | .erase _ => inferInstanceAs (Decidable True)

/-- The threads in `RunConnection` are those that the pool runs, and
`connections` are the threads between the two critical sections. -/
structure Tidy (s : BlockingServer) : Prop where
  running : s.phases.map RunPhase.isIdle = s.pool.workers.map fun p => p.task.isNone
  nodup : s.connections.Nodup
  members : ∀ w, w ∈ s.connections ↔ ∃ p, s.phases[w]? = some p ∧ p.inside = true
  count : s.connections.length = s.phases.countP RunPhase.inside
  room : s.waiting + s.connections.length ≤ s.maxWorkers

theorem countP_set_eq {α : Type} (f : α → Bool) {l : List α} {i : Nat} {p q : α}
    (h : l[i]? = some p) :
    (l.set i q).countP f + (if f p then 1 else 0) = l.countP f + (if f q then 1 else 0) := by
  obtain ⟨hlt, rfl⟩ := List.getElem?_eq_some_iff.mp h
  have hle : (if f l[i] then 1 else 0) ≤ l.countP f := List.boole_getElem_le_countP hlt
  rw [List.countP_set hlt]
  omega

theorem open_le_inside (phases : List RunPhase) :
    (phases.filterMap RunPhase.socket).length ≤
      phases.countP RunPhase.isEntered + phases.countP RunPhase.inside := by
  induction phases with
  | nil => exact Nat.le_refl 0
  | cons p phases ih =>
    rw [List.countP_cons, List.countP_cons, List.filterMap_cons]
    cases p <;> simp [RunPhase.socket, RunPhase.isEntered, RunPhase.inside] <;> omega

theorem Tidy.limited {s : BlockingServer} (h : s.Tidy) : s.Limited := by
  have hroom := h.room
  have hcount := h.count
  have hopen := open_le_inside s.phases
  unfold waiting at hroom
  unfold Limited openSockets
  rw [List.length_append]
  omega

theorem started_tidy (maxWorkers : Nat) : (started maxWorkers).Tidy where
  running := by simp [started, Executor.constructed, RunPhase.isIdle, WorkerPhase.task]
  nodup := List.nodup_nil
  members w := by
    simp only [started, List.not_mem_nil, false_iff]
    rintro ⟨p, hp, hinside⟩
    rw [List.getElem?_replicate] at hp
    split at hp
    next => cases hp; cases hinside
    next => cases hp
  count := by simp [started, RunPhase.inside]
  room := by simp [started, waiting, Executor.constructed, RunPhase.isEntered]

theorem members_set {phases : List RunPhase} {w : Nat} {p : RunPhase} (hp : phases[w]? = some p)
    (q : RunPhase) (v : Nat) :
    (∃ r, (phases.set w q)[v]? = some r ∧ r.inside = true) ↔
      (v = w ∧ q.inside = true) ∨ (v ≠ w ∧ ∃ r, phases[v]? = some r ∧ r.inside = true) := by
  have hlt := (List.getElem?_eq_some_iff.mp hp).1
  by_cases hv : v = w
  · subst hv
    simp [List.getElem?_set_self hlt]
  · simp [List.getElem?_set_ne (Ne.symm hv), hv]

/-- A step inside the pool that neither takes a task nor ends one. -/
theorem pool_quiet {e e' : Executor Int} {a : Act Int} (h : e.step a = some (e', .quiet)) :
    e'.tasks = e.tasks ∧
      (e'.workers.map fun p => p.task.isNone) = e.workers.map fun p => p.task.isNone := by
  have hset : ∀ (w : Nat) (p q : WorkerPhase Int), e.workers[w]? = some p → p.task = none →
      q.task = none → ((e.workers.set w q).map fun p => p.task.isNone) =
        e.workers.map fun p => p.task.isNone := by
    intro w p q hp hnone hq
    apply List.ext_getElem?
    intro i
    rw [List.map_set, hq]
    by_cases hi : w = i
    · subst hi
      have hlt := (List.getElem?_eq_some_iff.mp hp).1
      rw [List.getElem?_set_self (by simpa using hlt), List.getElem?_map, hp]
      simp [hnone]
    · rw [List.getElem?_set_ne hi]
  cases Executor.moves_of_step h with
  | left act empty spare =>
    obtain ⟨p, hp, hnone⟩ := act.idle
    exact ⟨rfl, hset _ p _ hp hnone rfl⟩
  | stayed act q hq =>
    obtain ⟨p, hp, hnone⟩ := act.idle
    refine ⟨rfl, hset _ p q hp hnone ?_⟩
    rcases hq with rfl | rfl <;> rfl
  | gaveUp phase stopped tasksLeft => exact ⟨rfl, hset _ _ _ phase rfl rfl⟩
  | stopping act down => exact ⟨rfl, rfl⟩

theorem Tidy.of_quiet {s : BlockingServer} {e' : Executor Int} (h : s.Tidy)
    (htasks : e'.tasks = s.pool.tasks)
    (hworkers : (e'.workers.map fun p => p.task.isNone) =
      s.pool.workers.map fun p => p.task.isNone) : Tidy { s with pool := e' } where
  running := h.running.trans hworkers.symm
  nodup := h.nodup
  members := h.members
  count := h.count
  room := by
    have hroom := h.room
    unfold waiting at hroom ⊢
    rw [htasks]
    exact hroom

theorem Tidy.phase {s : BlockingServer} (h : s.Tidy) {w : Nat} {p : WorkerPhase Int}
    (hp : s.pool.workers[w]? = some p) :
    ∃ q, s.phases[w]? = some q ∧ q.isIdle = p.task.isNone := by
  have hat := congrArg (fun l : List Bool => l[w]?) h.running
  simp only [List.getElem?_map, hp, Option.map_some] at hat
  exact Option.map_eq_some_iff.mp hat

theorem Tidy.length {s : BlockingServer} (h : s.Tidy) :
    s.phases.length = s.pool.workers.length := by
  simpa using congrArg List.length h.running

theorem isIdle_eq {q : RunPhase} (h : q.isIdle = true) : q = .idle := by
  cases q <;> first | rfl | cases h

/-- A thread takes a task from the queue and enters `RunConnection` with it. -/
theorem Tidy.dequeued {s : BlockingServer} {e' : Executor Int} {w : Nat} {timedOut : Bool}
    {socket : Int} (h : s.Tidy)
    (hs : s.pool.step (.wake w timedOut) = some (e', .dequeued socket)) :
    Tidy { s with pool := e', phases := s.phases.set w (.entered socket) } := by
  cases Executor.moves_of_step hs with
  | @dequeued _ phase run _ rest front =>
    obtain ⟨q, hq, hidle⟩ := h.phase phase
    obtain rfl := isIdle_eq hidle
    have hentered := countP_set_eq RunPhase.isEntered (q := .entered socket) hq
    have hinside := countP_set_eq RunPhase.inside (q := .entered socket) hq
    simp only [RunPhase.isEntered, RunPhase.inside] at hentered hinside
    have hroom := h.room
    have hcount := h.count
    refine ⟨?_, h.nodup, fun v => ?_, ?_, ?_⟩
    · dsimp only
      rw [List.map_set, List.map_set, h.running]
      rfl
    · rw [members_set hq, h.members v]
      by_cases hv : v = w
      · subst hv
        simp [hq, RunPhase.inside]
      · simp [hv]
    · dsimp only
      simp only [Bool.false_eq_true, if_false] at hinside
      omega
    · unfold waiting at hroom ⊢
      rw [front, List.length_cons] at hroom
      dsimp only
      simp only [Bool.false_eq_true, if_false, if_true] at hentered
      omega

/-- A thread changes its place in `RunConnection` and, with the mutex, its place
in `connections`. -/
theorem Tidy.set {s : BlockingServer} (h : s.Tidy) {w : Nat} {p q : RunPhase}
    (hp : s.phases[w]? = some p) (hidle : q.isIdle = p.isIdle) (hq : q.isEntered = false)
    {conns : List Nat} (hnodup : conns.Nodup)
    (hmembers : ∀ v, v ∈ conns ↔ (v = w ∧ q.inside = true) ∨ (v ≠ w ∧ v ∈ s.connections))
    (hcount : conns.length + (if p.inside then 1 else 0) =
      s.connections.length + (if q.inside then 1 else 0))
    (hroom : (if q.inside then 1 else 0) ≤
      (if p.isEntered then 1 else 0) + (if p.inside then 1 else 0)) :
    Tidy { s with phases := s.phases.set w q, connections := conns } := by
  have hentered := countP_set_eq RunPhase.isEntered (q := q) hp
  have hinside := countP_set_eq RunPhase.inside (q := q) hp
  rw [hq] at hentered
  have hbefore := h.room
  have hsame := h.count
  refine ⟨?_, hnodup, fun v => ?_, ?_, ?_⟩
  · dsimp only
    rw [List.map_set, hidle, ← h.running]
    apply List.ext_getElem?
    intro i
    by_cases hi : w = i
    · subst hi
      have hlt := (List.getElem?_eq_some_iff.mp hp).1
      rw [List.getElem?_set_self (by simpa using hlt), List.getElem?_map, hp]
      rfl
    · rw [List.getElem?_set_ne hi]
  · rw [members_set hp, hmembers v, h.members v]
  · dsimp only
    omega
  · unfold waiting at hbefore ⊢
    dsimp only
    simp only [Bool.false_eq_true, if_false] at hentered
    omega

theorem Tidy.accept {s : BlockingServer} (h : s.Tidy) {socket : Int}
    (hroom : s.HasRoom (.accept socket)) (haccepting : s.accepting = true) :
    (s.accept socket).Tidy := by
  unfold BlockingServer.accept
  split
  next hless =>
    by_cases hok : (s.pool.execute socket).2 = true
    · have hnext := hroom haccepting hless hok
      have hmoves := Executor.moves_of_step (e := s.pool) (a := .execute socket) rfl
      rw [hok] at hmoves
      obtain ⟨extra, hextra, htasks, hworkers⟩ : ∃ extra : List (WorkerPhase Int),
          (extra = [] ∨ extra = [.top]) ∧ (s.pool.execute socket).1.tasks = s.pool.tasks ++ [socket] ∧
            (s.pool.execute socket).1.workers = s.pool.workers ++ extra := by
        generalize (s.pool.execute socket).1 = e' at hmoves
        cases hmoves with
        | accepted _ run room =>
          by_cases hc : s.pool.Crowded
          · exact ⟨[.top], Or.inr rfl, rfl, by rw [if_pos hc]; rfl⟩
          · exact ⟨[], Or.inl rfl, rfl, by rw [if_neg hc]; simp⟩
      have hlen : (s.pool.execute socket).1.workers.length - s.phases.length = extra.length := by
        rw [hworkers, List.length_append, h.length]
        omega
      dsimp only
      rw [if_pos hok, hlen]
      refine ⟨?_, h.nodup, fun w => ?_, ?_, ?_⟩
      · dsimp only
        rw [List.map_append, h.running, hworkers, List.map_append]
        rcases hextra with rfl | rfl <;> rfl
      · rw [h.members w]
        dsimp only
        by_cases hw : w < s.phases.length
        · rw [List.getElem?_append_left hw]
        · rw [List.getElem?_append_right (by omega), List.getElem?_eq_none (by omega)]
          refine iff_of_false (by simp) ?_
          rintro ⟨p, hp, hinside⟩
          rw [List.getElem?_replicate] at hp
          split at hp
          next => cases hp; cases hinside
          next => cases hp
      · dsimp only
        rw [h.count, List.countP_append]
        simp [RunPhase.inside]
      · unfold waiting at hnext ⊢
        dsimp only
        rw [htasks, List.length_append, List.countP_append]
        simp only [List.length_singleton, List.countP_replicate, RunPhase.isEntered]
        simp only [Bool.false_eq_true, if_false]
        omega
    · dsimp only
      rw [if_neg hok]
      exact ⟨h.running, h.nodup, h.members, h.count, h.room⟩
  next => exact h

theorem Tidy.insert {s : BlockingServer} (h : s.Tidy) {w : Nat} {socket : Int}
    (hp : s.phases[w]? = some (.entered socket)) :
    Tidy { s with
      phases := s.phases.set w (.serving socket), connections := s.connections.insert w } := by
  have hnot : w ∉ s.connections := by
    rw [h.members w]
    rintro ⟨p, hp', hinside⟩
    cases hp.symm.trans hp'
    cases hinside
  refine h.set (q := .serving socket) hp rfl rfl (List.Nodup.insert h.nodup) (fun v => ?_) ?_
    (Nat.le_refl 1)
  · simp only [List.mem_insert_iff, RunPhase.inside, and_true]
    by_cases hv : v = w
    · simp [hv]
    · simp [hv]
  · simp [List.length_insert_of_not_mem hnot, RunPhase.inside]

theorem Tidy.close {s : BlockingServer} (h : s.Tidy) {w : Nat} {socket : Int}
    (hp : s.phases[w]? = some (.serving socket)) :
    Tidy { s with phases := s.phases.set w .closing } := by
  have hin : w ∈ s.connections := (h.members w).mpr ⟨_, hp, rfl⟩
  refine h.set (q := .closing) hp rfl rfl h.nodup (fun v => ?_) rfl (Nat.le_refl 1)
  by_cases hv : v = w
  · simp [hv, hin, RunPhase.inside]
  · simp [hv]

theorem Tidy.erase {s : BlockingServer} (h : s.Tidy) {w : Nat}
    (hp : s.phases[w]? = some .closing) :
    Tidy { s with
      phases := s.phases.set w .finished, connections := s.connections.erase w } := by
  have hin : w ∈ s.connections := (h.members w).mpr ⟨_, hp, rfl⟩
  have hpos := List.length_pos_of_mem hin
  refine h.set (q := .finished) hp rfl rfl (h.nodup.erase w) (fun v => ?_) ?_ (Nat.zero_le 1)
  · simp [h.nodup.mem_erase_iff, RunPhase.inside]
  · simp only [List.length_erase_of_mem hin, RunPhase.inside]
    simp only [if_true, Bool.false_eq_true, if_false]
    omega

theorem Tidy.finish {s : BlockingServer} {e' : Executor Int} {o : Outcome Int} {w : Nat}
    (h : s.Tidy) (hp : s.phases[w]? = some .finished)
    (hs : s.pool.step (.finish w) = some (e', o)) :
    Tidy { s with pool := e', phases := s.phases.set w .idle } := by
  cases Executor.moves_of_step hs with
  | @finished _ task phase =>
    have hentered := countP_set_eq RunPhase.isEntered (q := .idle) hp
    have hinside := countP_set_eq RunPhase.inside (q := .idle) hp
    have hroom := h.room
    refine ⟨?_, h.nodup, fun v => ?_, h.count.trans hinside.symm, ?_⟩
    · dsimp only
      rw [List.map_set, List.map_set, h.running]
      rfl
    · rw [members_set hp, h.members v]
      by_cases hv : v = w
      · subst hv
        simp [hp, RunPhase.inside]
      · simp [hv]
    · unfold waiting at hroom ⊢
      simp only [RunPhase.isEntered, Bool.false_eq_true, if_false, Nat.add_zero] at hentered
      rw [hentered]
      exact hroom
  | left act empty spare => cases act
  | stayed act p phase => cases act
  | stopping act down => simp at act

theorem Tidy.pool {s s' : BlockingServer} {a : Act Int} (h : s.Tidy)
    (hs : s.poolStep a = some s') : s'.Tidy := by
  have hquiet : ∀ e', s.pool.step a = some (e', .quiet) → Tidy { s with pool := e' } := by
    intro e' he
    obtain ⟨htasks, hworkers⟩ := pool_quiet he
    exact h.of_quiet htasks hworkers
  cases a with
  | execute task => cases hs
  | lock w =>
    obtain ⟨⟨e', o⟩, he, rfl⟩ := Option.map_eq_some_iff.mp hs
    cases Executor.moves_of_step he with
    | left act empty spare => exact hquiet _ he
    | stayed act p phase => exact hquiet _ he
    | stopping act down => exact hquiet _ he
  | wake w timedOut =>
    obtain ⟨⟨e', o⟩, he, rfl⟩ := Option.map_eq_some_iff.mp hs
    cases o with
    | dequeued socket => exact h.dequeued he
    | quiet => exact hquiet e' he
    | executed ok => cases Executor.moves_of_step he
    | ran task => cases Executor.moves_of_step he
  | finish w =>
    simp only [poolStep] at hs
    split at hs
    next hp =>
      obtain ⟨⟨e', o⟩, he, rfl⟩ := Option.map_eq_some_iff.mp hs
      exact h.finish hp he
    next => cases hs
  | stop await =>
    simp only [poolStep] at hs
    split at hs
    next => cases hs
    next =>
      obtain ⟨⟨e', o⟩, he, rfl⟩ := Option.map_eq_some_iff.mp hs
      cases he
      exact hquiet _ rfl
  | goOn call =>
    obtain ⟨⟨e', o⟩, he, rfl⟩ := Option.map_eq_some_iff.mp hs
    obtain ⟨e'', _, heq⟩ := Option.map_eq_some_iff.mp he
    cases heq
    exact hquiet _ he

theorem Tidy.step {s s' : BlockingServer} {a : ServerAct} {r : Unit} (h : s.Tidy)
    (hroom : s.HasRoom a) (hs : s.step a = some (s', r)) : s'.Tidy := by
  cases a with
  | accept socket =>
    simp only [BlockingServer.step] at hs
    split at hs
    next haccepting => cases hs; exact h.accept hroom haccepting
    next => cases hs
  | leave =>
    simp only [BlockingServer.step] at hs
    split at hs
    next => cases hs; exact ⟨h.running, h.nodup, h.members, h.count, h.room⟩
    next => cases hs
  | pool a =>
    obtain ⟨s'', hs', he⟩ := Option.map_eq_some_iff.mp hs
    cases he
    exact h.pool hs'
  | insert w =>
    simp only [BlockingServer.step] at hs
    split at hs
    next hp => cases hs; exact h.insert hp
    next => cases hs
  | close w =>
    simp only [BlockingServer.step] at hs
    split at hs
    next hp => cases hs; exact h.close hp
    next => cases hs
  | erase w =>
    simp only [BlockingServer.step] at hs
    split at hs
    next hp => cases hs; exact h.erase hp
    next => cases hs

end BlockingServer

/-- In a run in which every socket that is handed over finds room, the sockets
on their way to `connections` counted, no state reached has more open sockets or
more connections than the limit. -/
theorem connections_limited (maxWorkers : Nat) (acts : List ServerAct)
    (hroom : ∀ history s a, BlockingServer.Reach maxWorkers history s →
      history.map Prod.fst ++ [a] <+: acts → s.HasRoom a) :
    ∀ history s, BlockingServer.Reach maxWorkers history s → history.map Prod.fst <+: acts →
      s.Limited := by
  intro history s reach hpre
  refine BlockingServer.Tidy.limited ?_
  refine reach.invariant_within (I := fun _ => BlockingServer.Tidy) hpre
    (BlockingServer.started_tidy maxWorkers) ?_
  intro before s a t r reach hnext h hs
  exact h.step (hroom before s a reach hnext) hs

/-- One client at a time: the second is handed over when the first is gone. -/
theorem connections_limited_one_by_one :
    ∃ history s, BlockingServer.Reach 1 history s ∧
      history.map Prod.fst = [.accept 7, .pool (.lock 0), .pool (.wake 0 true), .insert 0,
        .accept 8, .close 0, .erase 0, .accept 9] ∧ s.openSockets = [9] ∧ s.Limited := by
  obtain ⟨history, s, reach, hacts, hopen⟩ := PartialRun.reach_of_check BlockingServer.step
    (.started 1) [.accept 7, .pool (.lock 0), .pool (.wake 0 true), .insert 0, .accept 8,
      .close 0, .erase 0, .accept 9] (fun s => s.openSockets = [9]) (by decide)
  refine ⟨history, s, reach, hacts, hopen, ?_⟩
  refine connections_limited 1 (history.map Prod.fst) ?_ history s reach (List.prefix_refl _)
  rw [hacts]
  exact PartialRun.holds_of_each (by decide)

/-- Two clients come before a thread takes the first: both are handed over. -/
theorem second_client_handed_over :
    ∃ history s, BlockingServer.Reach 1 history s ∧
      history.map Prod.fst = [.accept 7, .accept 8] ∧ s.openSockets = [7, 8] ∧ ¬ s.Limited := by
  obtain ⟨history, s, reach, hacts, hend⟩ := PartialRun.reach_of_check BlockingServer.step
    (.started 1) [.accept 7, .accept 8]
    (fun s => s.openSockets = [7, 8] ∧ s.maxWorkers = 1) (by decide)
  refine ⟨history, s, reach, hacts, hend.1, fun hlimited => ?_⟩
  have hle := hlimited.1
  rw [hend.1, hend.2] at hle
  simp at hle

end Afina
