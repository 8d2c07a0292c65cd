import Afina.EngineDone

namespace Afina

open LinkedList

mutual

/-- The steps that a call leads to; for `run` those of the new coroutine, its end
and what comes behind that. -/
def EngineCall.cost : EngineCall → Nat
  | .run body => scriptCost body + 3
  | .yield => 1
  | .sched _ => 1

def scriptCost : List EngineCall → Nat
  | [] => 0
  | op :: rest => op.cost + scriptCost rest

end

/-- The steps that a context is still good for. -/
def Context.load (c : Context) : Nat := if c.deleted then 0 else scriptCost c.script + 2

theorem Context.load_live {c : Context} (h : c.deleted = false) :
    c.load = scriptCost c.script + 2 := by
  rw [load, h]
  rfl

namespace Engine

variable {e e' : Engine} {xs : List Nat} {c k : Nat}

def total (e : Engine) : Nat := (e.contexts.map Context.load).sum

def load (e : Engine) : Nat :=
  e.total + if e.curRoutine = none ∧ e.returned = false then 1 else 0

theorem load_current (h : e.curRoutine ≠ none) : e.load = e.total := by
  simp [load, h]

theorem load_idle (h : e.curRoutine = none) (hr : e.returned = false) : e.load = e.total + 1 := by
  simp [load, h, hr]

theorem total_modify {f : Context → Context} (hs : e.modify k f = some e') :
    ∃ c, e.deref k = some c ∧ e'.total + c.load = e.total + (f c).load ∧
      e'.curRoutine = e.curRoutine ∧ e'.returned = e.returned := by
  obtain ⟨c, hc, rfl⟩ := Option.map_eq_some_iff.mp hs
  have hplace := (Option.filter_eq_some_iff.mp hc).1
  exact ⟨c, hc, PartialRun.sum_map_set Context.load hplace (f c), rfl, rfl⟩

/-- Links do not count. -/
theorem total_modifyAt {p : Option Nat} {f : Context → Context} (hs : e.modifyAt p f = some e')
    (hf : ∀ c, (f c).load = c.load) :
    e'.total = e.total ∧ e'.curRoutine = e.curRoutine ∧ e'.returned = e.returned := by
  cases p with
  | none =>
    cases Option.some.inj hs
    exact ⟨rfl, rfl, rfl⟩
  | some k =>
    obtain ⟨c, _, htotal, hrest⟩ := total_modify hs
    have hsame := hf c
    exact ⟨by omega, hrest⟩

theorem total_sched (hs : e.sched k = some e') :
    e'.total = e.total ∧ e'.curRoutine = some k ∧ e'.returned = e.returned := by
  obtain ⟨c, _, rfl⟩ := Option.map_eq_some_iff.mp hs
  exact ⟨rfl, rfl, rfl⟩

theorem total_yield (hs : e.yield = some e') :
    e'.total = e.total ∧ (e.curRoutine ≠ none ∨ e.alive ≠ none → e'.curRoutine ≠ none) ∧
      e'.returned = e.returned := by
  unfold Engine.yield at hs
  split at hs
  next hnone =>
    cases Option.some.inj hs
    exact ⟨rfl, fun h => h.resolve_right fun hsome => hsome hnone, rfl⟩
  next x _ =>
    obtain ⟨c, _, hs⟩ := Option.bind_eq_some_iff.mp hs
    obtain ⟨u, hu, hs⟩ := Option.bind_eq_some_iff.mp hs
    obtain ⟨htotal, _, hreturned⟩ := total_modifyAt hu fun _ => rfl
    obtain ⟨hlast, hcur, hback⟩ := total_sched hs
    refine ⟨hlast.trans htotal, fun _ => ?_, hback.trans hreturned⟩
    rw [hcur]
    simp

theorem total_run {body : List EngineCall} (hs : e.run body = some e') :
    e'.total = e.total + (scriptCost body + 2) ∧ e'.curRoutine = e.curRoutine ∧
      e'.returned = e.returned := by
  obtain ⟨htotal, hrest⟩ := total_modifyAt hs fun _ => rfl
  refine ⟨?_, hrest⟩
  rw [htotal]
  simp [total, Context.load]

theorem total_finish (hs : e.finish k = some e') (hscript : (e.deref k).map Context.script = some []) :
    e'.total + 2 = e.total ∧ e'.curRoutine = none ∧ e'.returned = e.returned := by
  obtain ⟨c, _, hs⟩ := Option.bind_eq_some_iff.mp hs
  obtain ⟨u, hu, hs⟩ := Option.bind_eq_some_iff.mp hs
  obtain ⟨v, hv, hs⟩ := Option.bind_eq_some_iff.mp hs
  rw [← script_modifyAt hu fun _ => ⟨rfl, rfl⟩, ← script_modifyAt hv fun _ => ⟨rfl, rfl⟩] at hscript
  obtain ⟨hutotal, _, hureturned⟩ := total_modifyAt hu fun _ => rfl
  obtain ⟨hvtotal, _, hvreturned⟩ := total_modifyAt hv fun _ => rfl
  obtain ⟨d, hd, htotal, hcur, hreturned⟩ := total_modify hs
  -- whichever pointers were moved, it is the context itself that is deleted
  have hdv : v.deref k = some d := by
    split at hd <;> exact hd
  have hsame : (if v.alive = v.curRoutine then { v with alive := c.next } else v).contexts =
      v.contexts := by
    split <;> rfl
  have hback : (if v.alive = v.curRoutine then { v with alive := c.next } else v).returned =
      v.returned := by
    split <;> rfl
  simp only [total, hsame] at htotal hutotal hvtotal ⊢
  rw [hdv] at hscript
  have hload : d.load = 2 := by
    rw [Context.load_live (deref_not_deleted hdv), Option.some.inj hscript]
    rfl
  have hdeleted : ({ d with prev := none, next := none, deleted := true } : Context).load = 0 := rfl
  refine ⟨by omega, hcur, ?_⟩
  rw [hreturned, hback, hvreturned, hureturned]

/-- A step of the current coroutine is one of those that were counted. -/
theorem total_perform {op : EngineCall} (hs : e.perform op = some e') (hcur : e.curRoutine ≠ none) :
    e'.total + 1 = e.total + op.cost ∧ e'.curRoutine ≠ none ∧ e'.returned = e.returned := by
  cases op with
  | run body =>
    obtain ⟨htotal, hsame, hreturned⟩ := total_run hs
    rw [EngineCall.cost]
    exact ⟨by omega, by rwa [hsame], hreturned⟩
  | yield =>
    obtain ⟨htotal, hkeep, hreturned⟩ := total_yield hs
    rw [EngineCall.cost]
    exact ⟨by omega, hkeep (Or.inl hcur), hreturned⟩
  | sched k =>
    obtain ⟨htotal, hsome, hreturned⟩ := total_sched hs
    rw [EngineCall.cost]
    refine ⟨by omega, ?_, hreturned⟩
    rw [hsome]
    simp

/-- Every step is one of those that were counted. -/
theorem load_step {r : Unit} (hs : e.step () = some (e', r)) : e'.load + 1 = e.load := by
  unfold Engine.step at hs
  split at hs
  next => cases hs
  next hrunning =>
    have hrunning : e.returned = false := Bool.eq_false_iff.mpr hrunning
    split at hs
    next hidle =>
      rw [load_idle hidle hrunning]
      split at hs
      next hempty =>
        cases hs
        simp [load, total]
      next hsome =>
        obtain ⟨v, hv, he⟩ := Option.map_eq_some_iff.mp hs
        cases he
        obtain ⟨htotal, hkeep, _⟩ := total_yield hv
        rw [load_current (hkeep (Or.inr hsome)), htotal]
    next pc hpc =>
      have hcurrent : e.curRoutine ≠ none := by
        rw [hpc]
        simp
      rw [load_current hcurrent]
      obtain ⟨ctx, hctx, hs⟩ := Option.bind_eq_some_iff.mp hs
      split at hs
      next hscript =>
        obtain ⟨v, hv, he⟩ := Option.map_eq_some_iff.mp hs
        cases he
        obtain ⟨htotal, hnone, hreturned⟩ :=
          total_finish hv (by rw [hctx, Option.map_some, hscript])
        rw [load_idle hnone (hreturned.trans hrunning)]
        omega
      next op rest hscript =>
        obtain ⟨u, hu, hs⟩ := Option.bind_eq_some_iff.mp hs
        obtain ⟨v, hv, he⟩ := Option.map_eq_some_iff.mp hs
        cases he
        obtain ⟨ctx', hctx', hutotal, hucur, _⟩ := total_modify hu
        cases hctx.symm.trans hctx'
        obtain ⟨htotal, hcur, _⟩ := total_perform hv (by rwa [hucur])
        rw [load_current hcur]
        have hlive := deref_not_deleted hctx
        have hold := Context.load_live hlive
        have hnew : Context.load { ctx with script := rest } = scriptCost rest + 2 :=
          Context.load_live hlive
        rw [hscript, scriptCost] at hold
        omega

/-- The coroutine that the next call schedules by hand. -/
def scheduled (e : Engine) : Option Nat :=
  match e.call with
  | some (.sched k) => some k
  | _ => none

def SchedsLive (e : Engine) : Prop := ∀ k ∈ e.scheduled, e.Live k

instance : DecidablePred SchedsLive := fun e =>
  inferInstanceAs (Decidable (∀ k ∈ e.scheduled, e.Live k))

/-- The old link of the current coroutine leads to no deleted context. -/
def Follows (e : Engine) : Prop := ∀ c, e.curRoutine = some c → ∀ k, e.next c = some k → e.Live k

/-- The head of the list and what comes behind it can be written to. -/
def Pops (e : Engine) : Prop := ∀ x, e.alive = some x → e.Live x ∧ ∀ k, e.next x = some k → e.Live k

theorem pops_of_forward (hf : Forward e.next e.alive xs) (hl : ∀ k ∈ xs, e.Live k) : e.Pops := by
  intro x hx
  rw [hx] at hf
  exact ⟨hl x hf.head_mem, fun k hk => hl k (hf.next_mem hf.head_mem hk)⟩

theorem Shows.pops {routine alive : Option Nat} {live : Nat → Prop} {next prev : Nat → Option Nat}
    (h : e.Shows routine alive live next prev)
    (hpops : ∀ x, alive = some x → live x ∧ ∀ k, next x = some k → live k) : e.Pops := by
  intro x hx
  rw [h.alive] at hx
  obtain ⟨hlive, hnext⟩ := hpops x hx
  refine ⟨(h.live x).mpr hlive, fun k hk => (h.live k).mpr (hnext k ?_)⟩
  rwa [h.next] at hk

theorem exists_sched (h : e.Live k) : ∃ e', e.sched k = some e' := by
  obtain ⟨c, hc⟩ := Option.isSome_iff_exists.mp h
  exact ⟨_, Option.map_eq_some_iff.mpr ⟨c, hc, rfl⟩⟩

theorem exists_yield (hrun : e.returned = false) (h : e.Pops) : ∃ e', e.yield = some e' := by
  unfold Engine.yield
  cases halive : e.alive with
  | none => exact ⟨e, rfl⟩
  | some x =>
    obtain ⟨hlive, hnext⟩ := h x halive
    obtain ⟨c, hc⟩ := Option.isSome_iff_exists.mp hlive
    have hself := Shows.self hrun
    have hlink := hself.next_of_deref hc
    obtain ⟨u, hu⟩ : ∃ u, e.setPrev c.next none = some u :=
      exists_modifyAt _ fun k hk => hnext k (hlink.symm.trans hk)
    have hux : u.Live x := ((hself.setPrev hu).2.live x).mpr hlive
    obtain ⟨v, hv⟩ : ∃ v, sched { u with alive := c.next } x = some v := exists_sched hux
    refine ⟨v, ?_⟩
    simp only [hc, hu, hv, Option.bind_eq_bind, Option.bind_some]

theorem exists_run (body : List EngineCall) (h : e.Pops) : ∃ e', e.run body = some e' := by
  refine exists_modifyAt _ fun k hk => ?_
  have hlive := (h k hk).1
  rw [Live, deref_append _ rfl]
  split
  next => rfl
  next => exact hlive

/-- Where the current coroutine and the list can be written to, there is a step. -/
theorem exists_step (hrun : e.returned = false) (hpops : e.Pops) (hsched : e.SchedsLive)
    (hlive : ∀ c, e.curRoutine = some c → e.Live c)
    (hprev : ∀ c, e.curRoutine = some c → ∀ k, e.prev c = some k → e.Live k)
    (hnext : e.Follows) : ∃ e', e.step () = some (e', ()) := by
  cases hcur : e.curRoutine with
  | none =>
    by_cases hempty : e.alive = none
    · exact ⟨{ e with returned := true }, by simp [step, hrun, hcur, hempty]⟩
    · obtain ⟨e', he'⟩ := exists_yield hrun hpops
      exact ⟨e', by simp [step, hrun, hcur, hempty, he']⟩
  | some c =>
    obtain ⟨ctx, hctx⟩ := Option.isSome_iff_exists.mp (hlive c hcur)
    cases hscript : ctx.script with
    | nil =>
      obtain ⟨e', he', _⟩ := exists_step_of_atEnd hrun
        ⟨hcur, by rw [hctx, Option.map_some, hscript]⟩ (hprev c hcur) (hnext c hcur)
      exact ⟨e', he'⟩
    | cons op rest =>
      obtain ⟨u, hu⟩ := exists_modify (fun c => { c with script := rest }) (hlive c hcur)
      have hshows := (Shows.self hrun).setScript hu
      have hupops := hshows.pops hpops
      have hperform : ∃ e', u.perform op = some e' := by
        cases op with
        | run body => exact exists_run body hupops
        | yield => exact exists_yield hshows.running hupops
        | sched k =>
          refine exists_sched ((hshows.live k).mpr (hsched k ?_))
          simp [scheduled, call, hcur, hctx, hscript]
      obtain ⟨e', he'⟩ := hperform
      exact ⟨e', by simp [step, hrun, hcur, hctx, hscript, hu, he']⟩

/-- What is on the list or current is where the engine expects it. -/
theorem phase_pops (h : e.Together xs ∨ e.Apart xs) : e.Pops := by
  rcases h with h | h
  · exact pops_of_forward h.chain.chained.linked.forward h.chain.chained.live
  · exact pops_of_forward h.forward fun k hk => (h.live k).mpr (Or.inl hk)

theorem phase_live (h : e.Together xs ∨ e.Apart xs) (hc : e.curRoutine = some c) : e.Live c := by
  rcases h with h | h
  · obtain ⟨c', hmem, hc'⟩ := h.current
    cases hc'.symm.trans hc
    exact h.chain.chained.live c hmem
  · exact (h.live c).mpr (Or.inr hc)

theorem phase_prev (h : e.Together xs ∨ e.Apart xs) (hc : e.curRoutine = some c)
    (hk : e.prev c = some k) : e.Live k := by
  rcases h with h | h
  · obtain ⟨c', hmem, hc'⟩ := h.current
    cases hc'.symm.trans hc
    exact h.chain.chained.live k (h.chain.chained.linked.prev_mem hmem hk)
  · rw [(h.current c hc).2] at hk
    cases hk

theorem Follows.step {r : Unit} (h : e.Follows) (hphase : e.Together xs ∨ e.Apart xs)
    (hkeeps : e.KeepsReady) (hs : e.step () = some (e', r)) : e'.Follows := by
  have hpops := phase_pops hphase
  obtain ⟨_, hmoves⟩ := moves_of_step hs
  intro d hd k hk
  cases hmoves with
  | stopped idle empty shut =>
    rw [shut] at hd
    cases idle.symm.trans hd
  | @created _ pc routine fresh head shows =>
    cases shows.routine.symm.trans hd
    have hne : d ≠ pc := fun heq => fresh (heq ▸ phase_live hphase routine)
    rw [shows.next, if_neg hne] at hk
    exact (shows.live k).mpr (Or.inr (h d routine k hk))
  | popped head live target shows =>
    cases shows.routine.symm.trans hd
    rw [shows.next] at hk
    exact (shows.live k).mpr ((hpops _ head).2 k hk)
  | @switched c _ routine target live shows =>
    cases shows.routine.symm.trans hd
    rw [shows.next] at hk
    refine (shows.live k).mpr ?_
    rcases hphase with hphase | hphase
    · have hchained := hphase.chain.chained
      exact hchained.live k (hchained.linked.forward.next_mem (hphase.live d live) hk)
    · have heq : d = c := target.elim id (hphase.target_eq hkeeps routine)
      exact h d (heq ▸ routine) k hk
  | finished ended prev next shows => cases shows.routine.symm.trans hd

theorem follows_reached {main : List EngineCall} {history : List (Unit × Unit)}
    (hkeeps : ∀ history e, Reach main history e → e.KeepsReady) (reach : Reach main history e) :
    e.Follows := by
  refine reach.invariant_along (I := Follows) ?_ ?_
  · intro c hc k hk
    cases Option.some.inj hc
    cases hk
  · rintro before e ⟨⟩ e' r reach h hs
    obtain ⟨xs, hphase⟩ := phase_reached hkeeps reach
    exact h.step hphase (hkeeps before e reach) hs

theorem load_started (main : List EngineCall) : (started main).load = scriptCost main + 2 := by
  rw [load_current (by simp [started])]
  simp [total, started, Context.load]

theorem load_reached {main : List EngineCall} {history : List (Unit × Unit)}
    (reach : Reach main history e) : history.length + e.load = scriptCost main + 2 := by
  induction reach with
  | start => rw [load_started, List.length_nil, Nat.zero_add]
  | next _ hs ih =>
    have hless := load_step hs
    rw [List.length_append, List.length_singleton]
    omega

theorem phase_done (h : e.Together xs ∨ e.Apart xs) (hended : e.Ended) (hr : e.returned = true) :
    e.AllDone := by
  intro c hc
  have hdeleted : c.deleted = true := by
    rcases h with h | h
    · obtain ⟨c, _, hcur⟩ := h.current
      cases (h.chain.idle hr).symm.trans hcur
    · obtain ⟨k, hk⟩ := List.mem_iff_getElem?.mp hc
      have hlive : ¬ e.Live k := h.not_live hr
      simpa [Live, deref, hk, Option.filter] using hlive
  exact ⟨hdeleted, hended c hc hdeleted⟩

theorem AllDone.total (h : e.AllDone) : e.total = 0 := by
  refine List.sum_eq_zero_iff_forall_eq_nat.mpr fun n hn => ?_
  obtain ⟨c, hc, rfl⟩ := List.mem_map.mp hn
  rw [Context.load, (h c hc).1]
  rfl

/-- No run of the engine is longer than its scripts ask for. If no coroutine gives up
control while it is off the list, and only coroutines that have not finished are
scheduled by hand, then nothing in the run is undefined, `start` returns, and all of
the scripts have been executed. That a coroutine is suspended and resumed where it was
is what `Store`, `Restore`, `setjmp` and `longjmp` are taken to do. -/
theorem start_returns (main : List EngineCall) :
    (∀ history e, Reach main history e → history.length ≤ scriptCost main + 2) ∧
    ((∀ history e, Reach main history e → e.KeepsReady ∧ e.SchedsLive) →
      ∃ history e, Reach main history e ∧ history.length = scriptCost main + 2 ∧
        e.returned = true ∧ e.AllDone) := by
  refine ⟨fun history e reach => ?_, fun hkeeps => ?_⟩
  · have hlength := load_reached reach
    omega
  · have hready : ∀ history e, Reach main history e → e.KeepsReady :=
      fun history e reach => (hkeeps history e reach).1
    have hless : ∀ e a e' r, True → Engine.step e a = some (e', r) → True ∧ e'.load < e.load := by
      intro e a e' r _ hs
      have hload := load_step hs
      exact ⟨trivial, by omega⟩
    obtain ⟨calls, e, history, hrun, hend⟩ :=
      PartialRun.exists_run_to_end (I := fun _ => True) load hless (s := started main) trivial
    have reach : Reach main history e := PartialRun.run_reach hrun
    obtain ⟨xs, hphase⟩ := phase_reached hready reach
    have hreturned : e.returned = true := by
      by_contra hrunning
      obtain ⟨e', hs⟩ := exists_step (Bool.eq_false_iff.mpr hrunning) (phase_pops hphase)
        (hkeeps history e reach).2 (fun _ => phase_live hphase) (fun _ hc _ => phase_prev hphase hc)
        (follows_reached hready reach)
      cases (hend ()).symm.trans hs
    have hdone := phase_done hphase (ended_reached reach) hreturned
    have hload : e.load = 0 := by
      simp [load, hdone.total, hreturned]
    have hlength := load_reached reach
    exact ⟨history, e, reach, by omega, hreturned, hdone⟩

/-- The test's two printers, each passing control to the other. -/
theorem start_returns_printers : ∃ history e,
    Reach [.run [.sched 2, .sched 2, .sched 2], .run [.sched 1, .sched 1], .sched 1] history e ∧
      history.length = 14 ∧ e.returned = true ∧ e.AllDone := by
  refine (start_returns _).2 ?_
  exact PartialRun.holds_of_halted 15 (by decide) (by decide)

end Engine

end Afina
