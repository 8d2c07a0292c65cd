import Afina.Lib.LinkedList
import Afina.Lib.PartialRun

namespace Afina

/-- What a coroutine does: `run` a new one with this script, `yield`, or `sched`
the coroutine that was the `k`-th to be created, the main one being the first. -/
inductive EngineCall
  | run (body : List EngineCall)
  | yield
  | sched (k : Nat)

/-- The engine's `context`. The rest of the script stands for the stored stack and
registers: `Store` and `Restore`, with `setjmp` and `longjmp`, are taken to suspend a
context and to resume it where it was. A deleted context stays in the model, with
nothing to read in it. -/
structure Context where
  script : List EngineCall
  prev : Option Nat
  next : Option Nat
  deleted : Bool

/-- `Engine`, with all contexts that it has created; pointers are places in that
list. Not in the source: whether `start` has returned. -/
structure Engine where
  contexts : List Context
  curRoutine : Option Nat
  alive : Option Nat
  returned : Bool

namespace Engine

/-- The context behind a pointer; there is none once it is deleted. -/
def deref (e : Engine) (k : Nat) : Option Context :=
  e.contexts[k]?.filter fun c => !c.deleted

def modify (e : Engine) (k : Nat) (f : Context → Context) : Option Engine :=
  (e.deref k).map fun c => { e with contexts := e.contexts.set k (f c) }

/-- A write behind `if (p != nullptr)`; to a deleted context it has no result. -/
def modifyAt (e : Engine) (p : Option Nat) (f : Context → Context) : Option Engine :=
  match p with
  | none => some e
  | some k => e.modify k f

/-- `p->prev = v`, if `p` is not null. -/
def setPrev (e : Engine) (p v : Option Nat) : Option Engine :=
  e.modifyAt p fun c => { c with prev := v }

def setNext (e : Engine) (p v : Option Nat) : Option Engine :=
  e.modifyAt p fun c => { c with next := v }

/-- The part of `run` that creates a coroutine. -/
def run (e : Engine) (body : List EngineCall) : Option Engine :=
  let pc := e.contexts.length
  setPrev { e with contexts := e.contexts ++ [⟨body, none, e.alive, false⟩], alive := some pc }
    e.alive (some pc)

/-- `sched`; what is left of the current coroutine's script is its suspension. -/
def sched (e : Engine) (k : Nat) : Option Engine :=
  (e.deref k).map fun _ => { e with curRoutine := some k }

def yield (e : Engine) : Option Engine :=
  match e.alive with
  | none => some e
  | some newRoutine => do
    let c ← e.deref newRoutine
    let e ← e.setPrev c.next none
    sched { e with alive := c.next } newRoutine

/-- The part of `run` behind the call of the coroutine's function. -/
def finish (e : Engine) (pc : Nat) : Option Engine := do
  let c ← e.deref pc
  let e ← e.setNext c.prev c.next
  let e ← e.setPrev c.next c.prev
  let e := if e.alive = e.curRoutine then { e with alive := c.next } else e
  modify { e with curRoutine := none } pc fun c =>
    { c with prev := none, next := none, deleted := true }

def perform (e : Engine) : EngineCall → Option Engine
  | .run body => e.run body
  | .yield => e.yield
  | .sched k => e.sched k

/-- The current coroutine goes on to its next call of the engine or to its end.
Without one it is `start` that calls `yield`, and that returns once this does. -/
def step (e : Engine) (_ : Unit) : Option (Engine × Unit) :=
  if e.returned then none
  else
    match e.curRoutine with
    | none =>
      if e.alive = none then some ({ e with returned := true }, ())
      else e.yield.map (·, ())
    | some pc => do
      let c ← e.deref pc
      match c.script with
      | [] => (e.finish pc).map (·, ())
      | op :: rest =>
        let e ← e.modify pc fun c => { c with script := rest }
        (e.perform op).map (·, ())

/-- `start`, once it has scheduled the main coroutine. -/
def started (main : List EngineCall) : Engine :=
  ⟨[⟨main, none, none, false⟩], some 0, some 0, false⟩

example (main : List EngineCall) :
    (run ⟨[], none, none, false⟩ main).bind (sched · 0) = some (started main) := rfl

abbrev Reach (main : List EngineCall) : List (Unit × Unit) → Engine → Prop :=
  PartialRun.Reach step (started main)

def Live (e : Engine) (k : Nat) : Prop := (e.deref k).isSome

instance (e : Engine) (k : Nat) : Decidable (e.Live k) := inferInstanceAs (Decidable (_ = true))

def next (e : Engine) (k : Nat) : Option Nat := (e.deref k).bind Context.next

def prev (e : Engine) (k : Nat) : Option Nat := (e.deref k).bind Context.prev

/-- The list behind `alive`, as long as it has an end. -/
def ready (e : Engine) : List Nat := LinkedList.walk e.next e.contexts.length e.alive

/-- The next call of the current coroutine. -/
def call (e : Engine) : Option EngineCall := do
  let c ← e.deref (← e.curRoutine)
  c.script.head?

def AtEnd (e : Engine) (c : Nat) : Prop :=
  e.curRoutine = some c ∧ (e.deref c).map Context.script = some []

/-- The coroutine that the next call passes control to. -/
def target (e : Engine) : Option Nat :=
  match e.call with
  | some .yield => e.alive
  | some (.sched k) => some k
  | _ => none

/-- All that the engine shows of its list: the two pointers, the contexts that are
not deleted, and their links. -/
structure Shows (e : Engine) (routine alive : Option Nat) (live : Nat → Prop)
    (next prev : Nat → Option Nat) : Prop where
  running : e.returned = false
  routine : e.curRoutine = routine
  alive : e.alive = alive
  live : ∀ k, e.Live k ↔ live k
  next : ∀ k, e.next k = next k
  prev : ∀ k, e.prev k = prev k

section

variable {e e' : Engine} {routine alive : Option Nat} {live : Nat → Prop}
  {next prev : Nat → Option Nat} {c d : Context} {k : Nat}

theorem live_lt (h : e.Live k) : k < e.contexts.length := by
  by_contra hk
  simp [Live, deref, List.getElem?_eq_none (Nat.not_lt.mp hk)] at h

theorem lt_of_deref (h : e.deref k = some c) : k < e.contexts.length := by
  refine live_lt ?_
  rw [Live, h]
  rfl

theorem deref_not_deleted (h : e.deref k = some c) : c.deleted = false := by
  obtain ⟨_, hc⟩ := Option.filter_eq_some_iff.mp h
  simpa using hc

theorem deref_set (d : Context) (h : e.deref k = some c) (j : Nat) :
    deref { e with contexts := e.contexts.set k d } j =
      if j = k then (if d.deleted then none else some d) else e.deref j := by
  have hk := lt_of_deref h
  by_cases hj : j = k
  · subst hj
    rw [if_pos rfl, deref, List.getElem?_set_self hk]
    cases hd : d.deleted <;> simp [Option.filter, hd]
  · rw [if_neg hj, deref, List.getElem?_set_ne (Ne.symm hj)]
    rfl

theorem Shows.self (h : e.returned = false) :
    e.Shows e.curRoutine e.alive e.Live e.next e.prev :=
  ⟨h, rfl, rfl, fun _ => Iff.rfl, fun _ => rfl, fun _ => rfl⟩

theorem Shows.live_of_deref (h : e.Shows routine alive live next prev) (hc : e.deref k = some c) :
    live k := by
  rw [← h.live, Live, hc]
  rfl

theorem Shows.next_of_deref (h : e.Shows routine alive live next prev) (hc : e.deref k = some c) :
    c.next = next k := by
  rw [← h.next, Engine.next, hc]
  rfl

theorem Shows.prev_of_deref (h : e.Shows routine alive live next prev) (hc : e.deref k = some c) :
    c.prev = prev k := by
  rw [← h.prev, Engine.prev, hc]
  rfl

/-- A write to one context; `next'` and `prev'` are the links behind it. -/
theorem Shows.modifyAt {p : Option Nat} {f : Context → Context} {next' prev' : Nat → Option Nat}
    (h : e.Shows routine alive live next prev) (hs : e.modifyAt p f = some e')
    (hf : ∀ c, (f c).deleted = c.deleted)
    (hn : ∀ j, (p ≠ some j → next' j = next j) ∧
      ∀ c, p = some j → c.next = next j → next' j = (f c).next)
    (hp : ∀ j, (p ≠ some j → prev' j = prev j) ∧
      ∀ c, p = some j → c.prev = prev j → prev' j = (f c).prev) :
    (∀ k, p = some k → live k) ∧ e'.Shows routine alive live next' prev' := by
  cases p with
  | none =>
    cases Option.some.inj hs
    have hnext : next' = next := funext fun j => (hn j).1 fun hj => nomatch hj
    have hprev : prev' = prev := funext fun j => (hp j).1 fun hj => nomatch hj
    rw [hnext, hprev]
    exact ⟨fun k hk => (nomatch hk), h⟩
  | some k =>
    obtain ⟨c, hc, rfl⟩ := Option.map_eq_some_iff.mp hs
    have hd : (f c).deleted = false := (hf c).trans (deref_not_deleted hc)
    refine ⟨fun j hj => Option.some.inj hj ▸ h.live_of_deref hc, h.running, h.routine, h.alive,
      fun j => ?_, fun j => ?_, fun j => ?_⟩
    · rw [Live, deref_set _ hc, ← h.live]
      split
      next hj => simp [hd, hj, Live, hc]
      next => rfl
    · rw [Engine.next, deref_set _ hc]
      split
      next hj => simp [hd, hj, (hn k).2 c rfl (h.next_of_deref hc)]
      next hj => rw [(hn j).1 fun heq => hj (Option.some.inj heq).symm, ← h.next, Engine.next]
    · rw [Engine.prev, deref_set _ hc]
      split
      next hj => simp [hd, hj, (hp k).2 c rfl (h.prev_of_deref hc)]
      next hj => rw [(hp j).1 fun heq => hj (Option.some.inj heq).symm, ← h.prev, Engine.prev]

theorem Shows.setPrev {p v : Option Nat} (h : e.Shows routine alive live next prev)
    (hs : e.setPrev p v = some e') :
    (∀ k, p = some k → live k) ∧
      e'.Shows routine alive live next (fun j => if p = some j then v else prev j) :=
  h.modifyAt hs (fun _ => rfl) (fun _ => ⟨fun _ => rfl, fun _ _ hc => hc.symm⟩)
    (fun _ => ⟨fun hj => if_neg hj, fun _ hj _ => if_pos hj⟩)

theorem Shows.setNext {p v : Option Nat} (h : e.Shows routine alive live next prev)
    (hs : e.setNext p v = some e') :
    (∀ k, p = some k → live k) ∧
      e'.Shows routine alive live (fun j => if p = some j then v else next j) prev :=
  h.modifyAt hs (fun _ => rfl) (fun _ => ⟨fun hj => if_neg hj, fun _ hj _ => if_pos hj⟩)
    (fun _ => ⟨fun _ => rfl, fun _ _ hc => hc.symm⟩)

theorem Shows.setScript {rest : List EngineCall} (h : e.Shows routine alive live next prev)
    (hs : e.modify k (fun c => { c with script := rest }) = some e') :
    e'.Shows routine alive live next prev := by
  have hat : e.modifyAt (some k) (fun c => { c with script := rest }) = some e' := hs
  exact (h.modifyAt hat (fun _ => rfl) (fun _ => ⟨fun _ => rfl, fun _ _ hc => hc.symm⟩)
    (fun _ => ⟨fun _ => rfl, fun _ _ hc => hc.symm⟩)).2

theorem Shows.sched (h : e.Shows routine alive live next prev) (hs : e.sched k = some e') :
    live k ∧ e'.Shows (some k) alive live next prev := by
  obtain ⟨c, hc, rfl⟩ := Option.map_eq_some_iff.mp hs
  exact ⟨h.live_of_deref hc, h.running, rfl, h.alive, h.live, h.next, h.prev⟩

theorem Shows.yield {x : Nat} (h : e.Shows routine (some x) live next prev)
    (hs : e.yield = some e') :
    live x ∧ (∀ k, next x = some k → live k) ∧
      e'.Shows (some x) (next x) live next (fun j => if next x = some j then none else prev j) := by
  rw [Engine.yield, h.alive] at hs
  obtain ⟨c, hc, hs⟩ := Option.bind_eq_some_iff.mp hs
  rw [h.next_of_deref hc] at hs
  obtain ⟨u, hu, hs⟩ := Option.bind_eq_some_iff.mp hs
  obtain ⟨hlive, hu⟩ := h.setPrev hu
  have halive : Shows { u with alive := next x } _ _ _ _ _ :=
    ⟨hu.running, hu.routine, rfl, hu.live, hu.next, hu.prev⟩
  exact ⟨h.live_of_deref hc, hlive, (halive.sched hs).2⟩

theorem deref_append (d : Context) (hd : d.deleted = false) (a : Option Nat) (j : Nat) :
    deref { e with contexts := e.contexts ++ [d], alive := a } j =
      if j = e.contexts.length then some d else e.deref j := by
  by_cases hj : j = e.contexts.length
  · subst hj
    simp [deref, Option.filter, hd]
  · rw [if_neg hj]
    by_cases hlt : j < e.contexts.length
    · simp [deref, List.getElem?_append_left hlt]
    · have hlen : (e.contexts ++ [d]).length ≤ j := by
        simp only [List.length_append, List.length_singleton]
        omega
      simp [deref, List.getElem?_eq_none hlen, List.getElem?_eq_none (Nat.not_lt.mp hlt)]

theorem Shows.run {body : List EngineCall} (h : e.Shows routine alive live next prev)
    (hs : e.run body = some e') :
    ∃ pc, ¬ live pc ∧ (∀ k, alive = some k → k = pc ∨ live k) ∧
      e'.Shows routine (some pc) (fun j => j = pc ∨ live j)
        (fun j => if j = pc then alive else next j)
        (fun j => if alive = some j then some pc else if j = pc then none else prev j) := by
  have hfresh : ¬ live e.contexts.length := by
    rw [← h.live]
    exact fun hlive => Nat.lt_irrefl _ (live_lt hlive)
  have hnew : Shows { e with
      contexts := e.contexts ++ [⟨body, none, e.alive, false⟩], alive := some e.contexts.length }
      routine (some e.contexts.length) (fun j => j = e.contexts.length ∨ live j)
      (fun j => if j = e.contexts.length then alive else next j)
      (fun j => if j = e.contexts.length then none else prev j) := by
    refine ⟨h.running, h.routine, rfl, fun j => ?_, fun j => ?_, fun j => ?_⟩
    · rw [Live, deref_append _ rfl, ← h.live]
      split
      next hj => simp [hj]
      next hj => simp [hj, Live]
    · rw [Engine.next, deref_append _ rfl, ← h.next]
      split
      next => exact h.alive
      next => rfl
    · rw [Engine.prev, deref_append _ rfl, ← h.prev]
      split <;> rfl
  rw [Engine.run, h.alive] at hs
  rw [h.alive] at hnew
  exact ⟨e.contexts.length, hfresh, hnew.setPrev hs⟩

theorem Shows.delete (h : e.Shows routine alive live next prev)
    (hs : e.modify k (fun c => { c with prev := none, next := none, deleted := true }) = some e') :
    e'.Shows routine alive (fun j => j ≠ k ∧ live j) (fun j => if j = k then none else next j)
      (fun j => if j = k then none else prev j) := by
  obtain ⟨c, hc, rfl⟩ := Option.map_eq_some_iff.mp hs
  refine ⟨h.running, h.routine, h.alive, fun j => ?_, fun j => ?_, fun j => ?_⟩
  · rw [Live, deref_set _ hc, ← h.live]
    split
    next hj => simp [hj]
    next hj => simp [hj, Live]
  · rw [Engine.next, deref_set _ hc, ← h.next]
    split <;> rfl
  · rw [Engine.prev, deref_set _ hc, ← h.prev]
    split <;> rfl

theorem Shows.finish (h : e.Shows (some k) alive live next prev) (hs : e.finish k = some e') :
    (∀ j, prev k = some j → live j) ∧ (∀ j, next k = some j → live j) ∧
      e'.Shows none (if alive = some k then next k else alive) (fun j => j ≠ k ∧ live j)
        (fun j => if j = k then none else if prev k = some j then next k else next j)
        (fun j => if j = k then none else if next k = some j then prev k else prev j) := by
  obtain ⟨c, hc, hs⟩ := Option.bind_eq_some_iff.mp hs
  rw [h.next_of_deref hc, h.prev_of_deref hc] at hs
  obtain ⟨u, hu, hs⟩ := Option.bind_eq_some_iff.mp hs
  obtain ⟨hprev, hu⟩ := h.setNext hu
  obtain ⟨v, hv, hs⟩ := Option.bind_eq_some_iff.mp hs
  obtain ⟨hnext, hv⟩ := hu.setPrev hv
  refine ⟨hprev, hnext, ?_⟩
  refine Shows.delete ?_ hs
  rw [hv.alive, hv.routine]
  split
  next => exact ⟨hv.running, rfl, rfl, hv.live, hv.next, hv.prev⟩
  next => exact ⟨hv.running, rfl, hv.alive, hv.live, hv.next, hv.prev⟩

end

/-- What one step can do. -/
inductive Moves (e e' : Engine) : Prop
  | stopped (idle : e.curRoutine = none) (empty : e.alive = none)
      (shut : e' = { e with returned := true })
  | created {c pc : Nat} (routine : e.curRoutine = some c) (fresh : ¬ e.Live pc)
      (head : ∀ k, e.alive = some k → k = pc ∨ e.Live k)
      (shows : e'.Shows (some c) (some pc) (fun j => j = pc ∨ e.Live j)
        (fun j => if j = pc then e.alive else e.next j)
        (fun j => if e.alive = some j then some pc else if j = pc then none else e.prev j))
  | popped {x : Nat} (head : e.alive = some x) (live : e.Live x)
      (target : e.curRoutine = none ∨ e.target = some x)
      (shows : e'.Shows (some x) (e.next x) e.Live e.next
        (fun j => if e.next x = some j then none else e.prev j))
  | switched {c k : Nat} (routine : e.curRoutine = some c) (target : k = c ∨ e.target = some k)
      (live : e.Live k) (shows : e'.Shows (some k) e.alive e.Live e.next e.prev)
  | finished {c : Nat} (ended : e.AtEnd c) (prev : ∀ k, e.prev c = some k → e.Live k)
      (next : ∀ k, e.next c = some k → e.Live k)
      (shows : e'.Shows none (if e.alive = some c then e.next c else e.alive)
        (fun j => j ≠ c ∧ e.Live j)
        (fun j => if j = c then none else if e.prev c = some j then e.next c else e.next j)
        (fun j => if j = c then none else if e.next c = some j then e.prev c else e.prev j))

theorem moves_of_step {e e' : Engine} {r : Unit} (h : e.step () = some (e', r)) :
    e.returned = false ∧ Moves e e' := by
  unfold step at h
  split at h
  next => cases h
  next hrun =>
    have hrun : e.returned = false := Bool.eq_false_iff.mpr hrun
    have hself := Shows.self hrun
    refine ⟨hrun, ?_⟩
    split at h
    next hidle =>
      split at h
      next hempty =>
        cases h
        exact .stopped hidle hempty rfl
      next hhead =>
        obtain ⟨x, hx⟩ := Option.ne_none_iff_exists'.mp hhead
        obtain ⟨v, hv, he⟩ := Option.map_eq_some_iff.mp h
        cases he
        rw [hx] at hself
        obtain ⟨hlive, hnext, hshows⟩ := hself.yield hv
        exact .popped hx hlive (Or.inl hidle) hshows
    next c hc =>
      obtain ⟨ctx, hctx, h⟩ := Option.bind_eq_some_iff.mp h
      split at h
      next hscript =>
        obtain ⟨v, hv, he⟩ := Option.map_eq_some_iff.mp h
        cases he
        rw [hc] at hself
        obtain ⟨hprev, hnext, hshows⟩ := hself.finish hv
        exact .finished ⟨hc, by rw [hctx, Option.map_some, hscript]⟩ hprev hnext hshows
      next op rest hscript =>
        obtain ⟨u, hu, h⟩ := Option.bind_eq_some_iff.mp h
        obtain ⟨v, hv, he⟩ := Option.map_eq_some_iff.mp h
        cases he
        have hcall : e.call = some op := by simp [call, hc, hctx, hscript]
        have hlive := hself.live_of_deref hctx
        have hu := hself.setScript hu
        rw [hc] at hu
        cases op with
        | run body =>
          obtain ⟨pc, hfresh, hhead, hshows⟩ := hu.run hv
          exact .created hc hfresh hhead hshows
        | yield =>
          have htarget : e.target = e.alive := by rw [target, hcall]
          cases hx : e.alive with
          | none =>
            rw [perform, yield, hu.alive, hx] at hv
            cases hv
            exact .switched hc (Or.inl rfl) hlive hu
          | some x =>
            rw [hx] at hu
            obtain ⟨hx', hnext, hshows⟩ := hu.yield hv
            exact .popped hx hx' (Or.inr (htarget.trans hx)) hshows
        | sched k =>
          obtain ⟨hk, hshows⟩ := hu.sched hv
          exact .switched hc (Or.inr (by rw [target, hcall])) hk hshows

end Engine

end Afina
