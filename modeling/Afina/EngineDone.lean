import Afina.EngineLinks

namespace Afina

open LinkedList

namespace Engine

variable {e e' : Engine} {xs : List Nat} {c k : Nat}

/-- Every coroutine has executed its whole script and has been deleted. -/
def AllDone (e : Engine) : Prop := ∀ c ∈ e.contexts, c.deleted = true ∧ c.script = []

/-- The current coroutine gives up control to another one only while it is on the
list of those that are ready; `yield` and `sched` do not put it there. -/
def KeepsReady (e : Engine) : Prop :=
  ∀ c ∈ e.curRoutine, ∀ k ∈ e.target, k ≠ c → c ∈ e.ready

instance : DecidablePred KeepsReady := fun e =>
  inferInstanceAs (Decidable (∀ c ∈ e.curRoutine, ∀ k ∈ e.target, k ≠ c → c ∈ e.ready))

/-- Up to the first `yield` or the first end: the list has all coroutines, and with them the current
one. -/
structure Together (e : Engine) (xs : List Nat) : Prop where
  chain : e.Chain xs
  live : ∀ k, e.Live k → k ∈ xs
  current : ∃ c ∈ xs, e.curRoutine = some c

/-- Later on the current coroutine is the only one off the list. The ends of such
coroutines leave the list in one piece forwards, not always backwards. -/
structure Apart (e : Engine) (xs : List Nat) : Prop where
  forward : Forward e.next e.alive xs
  first : ∀ k, e.alive = some k → e.prev k = none
  live : ∀ k, e.Live k ↔ k ∈ xs ∨ e.curRoutine = some k
  current : ∀ c, e.curRoutine = some c → c ∉ xs ∧ e.prev c = none
  empty : e.returned = true → e.curRoutine = none ∧ e.alive = none

theorem together_started (main : List EngineCall) : (started main).Together [0] := by
  refine ⟨chain_started main, fun k hk => ?_, 0, List.mem_singleton_self 0, rfl⟩
  have hlt := live_lt hk
  simpa [started] using hlt

theorem Chain.apart (h : e.Chain xs) (hrun : e.returned = false)
    (hl : ∀ k, e.Live k → k ∈ xs ∨ e.curRoutine = some k)
    (hc : ∀ c, e.curRoutine = some c → c ∉ xs ∧ e.Live c) : e.Apart xs := by
  have hlinked := h.chained.linked
  refine ⟨hlinked.forward, fun k hk => ?_, fun k => ⟨hl k, ?_⟩, fun c hcur => ?_, fun hr => ?_⟩
  · have hmem : k ∈ xs := (hk ▸ hlinked.forward).head_mem
    exact (hlinked.head_iff hmem).mp hk
  · rintro (hk | hk)
    · exact h.chained.live k hk
    · exact (hc k hk).2
  · exact ⟨(hc c hcur).1, h.chained.off c (hc c hcur).1⟩
  · rw [hrun] at hr
    cases hr

theorem Together.step {r : Unit} (h : e.Together xs) (hs : e.step () = some (e', r)) :
    ∃ ys, e'.Together ys ∨ e'.Apart ys := by
  have hchained := h.chain.chained
  have hnodup := hchained.linked.forward.nodup
  obtain ⟨c, hc, hcur⟩ := h.current
  obtain ⟨_, hmoves⟩ := moves_of_step hs
  cases hmoves with
  | stopped idle empty shut => exact nomatch idle.symm.trans hcur
  | @created d pc routine fresh head shows =>
    refine ⟨pc :: xs, Or.inl ?_⟩
    refine ⟨shows.chain (hchained.push fresh), fun k hk => ?_, d, ?_, shows.routine⟩
    · exact List.mem_cons.mpr (((shows.live k).mp hk).imp_right (h.live k))
    · exact List.mem_cons_of_mem pc (Option.some.inj (hcur.symm.trans routine) ▸ hc)
  | @popped x head live target shows =>
    have hx := hchained
    rw [head] at hx
    refine ⟨xs.erase x, Or.inr ?_⟩
    refine (shows.chain hx.pop).apart shows.running (fun k hk => ?_) fun d hd => ?_
    · rw [shows.routine, hnodup.mem_erase_iff]
      by_cases hkx : k = x
      · exact Or.inr (congrArg some hkx.symm)
      · exact Or.inl ⟨hkx, h.live k ((shows.live k).mp hk)⟩
    · obtain rfl := Option.some.inj (shows.routine.symm.trans hd)
      exact ⟨hnodup.not_mem_erase, (shows.live x).mpr live⟩
  | @switched d k routine target live shows =>
    refine ⟨xs, Or.inl ⟨shows.chain hchained, fun j hj => ?_, k, h.live k live, shows.routine⟩⟩
    exact h.live j ((shows.live j).mp hj)
  | @finished d ended prev next shows =>
    obtain rfl := Option.some.inj (hcur.symm.trans ended.1)
    refine ⟨xs.erase c, Or.inr ?_⟩
    refine (shows.chain (hchained.unlink hc)).apart shows.running (fun k hk => ?_) fun d hd => ?_
    · obtain ⟨hkc, hk⟩ := (shows.live k).mp hk
      exact Or.inl (hnodup.mem_erase_iff.mpr ⟨hkc, h.live k hk⟩)
    · exact nomatch shows.routine.symm.trans hd

theorem Apart.ready (h : e.Apart xs) : e.ready = xs :=
  ready_eq h.forward fun k hk => (h.live k).mpr (Or.inl hk)

/-- The current coroutine cannot give up control and keep to the condition. -/
theorem Apart.target_eq (h : e.Apart xs) (hk : e.KeepsReady) (hc : e.curRoutine = some c)
    (ht : e.target = some k) : k = c := by
  by_contra hne
  have hready := hk c hc k ht hne
  rw [h.ready] at hready
  exact (h.current c hc).1 hready

theorem Apart.step {r : Unit} (h : e.Apart xs) (hkeeps : e.KeepsReady)
    (hs : e.step () = some (e', r)) : ∃ ys, e'.Apart ys := by
  obtain ⟨_, hmoves⟩ := moves_of_step hs
  have hhead : ∀ k, e.alive = some k → k ∈ xs := fun k hk => (hk ▸ h.forward).head_mem
  cases hmoves with
  | stopped idle empty shut =>
    subst shut
    exact ⟨xs, h.forward, h.first, h.live, h.current, fun _ => ⟨idle, empty⟩⟩
  | @created c pc routine fresh head shows =>
    obtain ⟨hc, hprev⟩ := h.current c routine
    have hlive : ∀ k ∈ xs, e.Live k := fun k hk => (h.live k).mpr (Or.inl hk)
    have hpc : e.alive ≠ some pc := fun hx => fresh (hlive pc (hhead pc hx))
    have hcpc : c ≠ pc := by
      rintro rfl
      exact fresh ((h.live c).mpr (Or.inr routine))
    refine ⟨pc :: xs, ⟨shows.alive, ?_⟩, fun k hk => ?_, fun k => ?_, fun d hd => ?_, fun hr => ?_⟩
    · rw [shows.next, if_pos rfl]
      refine h.forward.congr fun k hk => ?_
      have hkpc : k ≠ pc := by
        rintro rfl
        exact fresh (hlive k hk)
      rw [shows.next, if_neg hkpc]
    · obtain rfl := Option.some.inj (shows.alive.symm.trans hk)
      rw [shows.prev, if_neg hpc, if_pos rfl]
    · rw [shows.live, shows.routine, h.live, routine, List.mem_cons, or_assoc]
    · obtain rfl := Option.some.inj (shows.routine.symm.trans hd)
      refine ⟨fun hm => (List.mem_cons.mp hm).elim hcpc hc, ?_⟩
      rw [shows.prev, if_neg fun hx => hc (hhead c hx), if_neg hcpc, hprev]
    · exact nomatch shows.running.symm.trans hr
  | @popped x head live target shows =>
    have hidle : e.curRoutine = none := by
      cases hcur : e.curRoutine with
      | none => rfl
      | some c =>
        have ht : e.target = some x :=
          target.resolve_left fun hnone => nomatch hnone.symm.trans hcur
        obtain rfl := h.target_eq hkeeps hcur ht
        exact absurd (hhead x head) (h.current x hcur).1
    cases xs with
    | nil => exact nomatch (hhead x head)
    | cons y ys =>
      obtain rfl : y = x := Option.some.inj (h.forward.1.symm.trans head)
      have hnodup := List.nodup_cons.mp h.forward.nodup
      refine ⟨ys, ?_, fun k hk => ?_, fun k => ?_, fun d hd => ?_, fun hr => ?_⟩
      · rw [shows.alive]
        exact h.forward.2.congr fun k _ => shows.next k
      · rw [shows.prev, if_pos (shows.alive.symm.trans hk)]
      · rw [shows.live, shows.routine, h.live, hidle, List.mem_cons]
        simp [or_comm, eq_comm]
      · obtain rfl := Option.some.inj (shows.routine.symm.trans hd)
        refine ⟨hnodup.1, ?_⟩
        rw [shows.prev, h.first y head, ite_self]
      · exact nomatch shows.running.symm.trans hr
  | @switched c k routine target live shows =>
    have hkc : k = c := target.elim id (h.target_eq hkeeps routine)
    subst hkc
    refine ⟨xs, ?_, fun j hj => ?_, fun j => ?_, fun d hd => ?_, fun hr => ?_⟩
    · rw [shows.alive]
      exact h.forward.congr fun j _ => shows.next j
    · rw [shows.prev, h.first j (shows.alive.symm.trans hj)]
    · rw [shows.live, shows.routine, h.live, routine]
    · rw [shows.prev]
      exact h.current d (routine.trans (shows.routine.symm.trans hd))
    · exact nomatch shows.running.symm.trans hr
  | @finished c ended prev next shows =>
    obtain ⟨hc, hprev⟩ := h.current c ended.1
    have halive : e'.alive = e.alive := by
      rw [shows.alive, if_neg fun hx => hc (hhead c hx)]
    have hne : ∀ j ∈ xs, j ≠ c := fun j hj heq => hc (heq ▸ hj)
    refine ⟨xs, ?_, fun j hj => ?_, fun j => ?_, fun d hd => ?_, fun hr => ?_⟩
    · rw [halive]
      refine h.forward.congr fun j hj => ?_
      rw [shows.next, if_neg (hne j hj), hprev]
      simp
    · have hj := h.first j (halive.symm.trans hj)
      rw [shows.prev, hprev, hj, ite_self, ite_self]
    · rw [shows.live, shows.routine, h.live, ended.1]
      constructor
      · rintro ⟨hjc, hj | hj⟩
        · exact Or.inl hj
        · exact absurd (Option.some.inj hj).symm hjc
      · rintro (hj | hj)
        · exact ⟨hne j hj, Or.inl hj⟩
        · cases hj
    · exact nomatch shows.routine.symm.trans hd
    · exact nomatch shows.running.symm.trans hr

/-- What has been deleted had come to its end. -/
def Ended (e : Engine) : Prop := ∀ c ∈ e.contexts, c.deleted = true → c.script = []

theorem Ended.modify {f : Context → Context} (h : e.Ended) (hs : e.modify k f = some e')
    (hf : ∀ c, e.deref k = some c → (f c).deleted = true → (f c).script = []) : e'.Ended := by
  obtain ⟨c, hc, rfl⟩ := Option.map_eq_some_iff.mp hs
  intro d hd
  obtain hd | rfl := List.mem_or_eq_of_mem_set hd
  · exact h d hd
  · exact hf c hc

theorem Ended.write {f : Context → Context} (h : e.Ended) (hs : e.modify k f = some e')
    (hf : ∀ c, (f c).deleted = c.deleted) : e'.Ended := by
  refine h.modify hs fun c hc hd => ?_
  rw [hf c, deref_not_deleted hc] at hd
  cases hd

theorem Ended.writeAt {p : Option Nat} {f : Context → Context} (h : e.Ended)
    (hs : e.modifyAt p f = some e') (hf : ∀ c, (f c).deleted = c.deleted) : e'.Ended := by
  cases p with
  | none => exact Option.some.inj hs ▸ h
  | some k => exact h.write hs hf

theorem Ended.setPrev {p v : Option Nat} (h : e.Ended) (hs : e.setPrev p v = some e') :
    e'.Ended := h.writeAt hs fun _ => rfl

theorem Ended.sched (h : e.Ended) (hs : e.sched k = some e') : e'.Ended := by
  obtain ⟨c, hc, rfl⟩ := Option.map_eq_some_iff.mp hs
  exact h

theorem Ended.yield (h : e.Ended) (hs : e.yield = some e') : e'.Ended := by
  unfold Engine.yield at hs
  split at hs
  next => exact Option.some.inj hs ▸ h
  next x _ =>
    obtain ⟨c, _, hs⟩ := Option.bind_eq_some_iff.mp hs
    obtain ⟨u, hu, hs⟩ := Option.bind_eq_some_iff.mp hs
    have hu := h.setPrev hu
    exact Ended.sched (e := { u with alive := c.next }) hu hs

theorem Ended.run {body : List EngineCall} (h : e.Ended) (hs : e.run body = some e') :
    e'.Ended := by
  refine Ended.setPrev (fun c hc => ?_) hs
  obtain hc | hc := List.mem_append.mp hc
  · exact h c hc
  · rw [List.mem_singleton.mp hc]
    exact fun hd => nomatch hd

theorem script_modifyAt {p : Option Nat} {f : Context → Context} (hs : e.modifyAt p f = some e')
    (hf : ∀ c, (f c).script = c.script ∧ (f c).deleted = c.deleted) (j : Nat) :
    (e'.deref j).map Context.script = (e.deref j).map Context.script := by
  cases p with
  | none => rw [Option.some.inj hs]
  | some k =>
    obtain ⟨c, hc, rfl⟩ := Option.map_eq_some_iff.mp hs
    rw [deref_set _ hc]
    split
    next hj => simp [hj, hc, (hf c).1, (hf c).2, deref_not_deleted hc]
    next => rfl

theorem Ended.finish (h : e.Ended) (hs : e.finish k = some e')
    (hscript : (e.deref k).map Context.script = some []) : e'.Ended := by
  obtain ⟨c, _, hs⟩ := Option.bind_eq_some_iff.mp hs
  obtain ⟨u, hu, hs⟩ := Option.bind_eq_some_iff.mp hs
  obtain ⟨v, hv, hs⟩ := Option.bind_eq_some_iff.mp hs
  rw [← script_modifyAt hu fun _ => ⟨rfl, rfl⟩, ← script_modifyAt hv fun _ => ⟨rfl, rfl⟩] at hscript
  have hended := (h.writeAt hu fun _ => rfl).setPrev hv
  split at hs
  all_goals
    refine Ended.modify (e := { v with alive := _, curRoutine := none }) hended hs fun d hd _ => ?_
    have hdv : v.deref k = some d := hd
    rw [hdv] at hscript
    exact Option.some.inj hscript

theorem Ended.step {r : Unit} (h : e.Ended) (hs : e.step () = some (e', r)) : e'.Ended := by
  unfold Engine.step at hs
  split at hs
  next => cases hs
  next =>
    split at hs
    next =>
      split at hs
      next => cases hs; exact h
      next =>
        obtain ⟨v, hv, he⟩ := Option.map_eq_some_iff.mp hs
        cases he
        exact h.yield hv
    next =>
      obtain ⟨ctx, hctx, hs⟩ := Option.bind_eq_some_iff.mp hs
      split at hs
      next hscript =>
        obtain ⟨v, hv, he⟩ := Option.map_eq_some_iff.mp hs
        cases he
        exact h.finish hv (by rw [hctx, Option.map_some, hscript])
      next op rest _ =>
        obtain ⟨u, hu, hs⟩ := Option.bind_eq_some_iff.mp hs
        obtain ⟨v, hv, he⟩ := Option.map_eq_some_iff.mp hs
        cases he
        have hu := h.write hu fun _ => rfl
        cases op with
        | run body => exact hu.run hv
        | yield => exact hu.yield hv
        | sched k => exact hu.sched hv

theorem phase_reached {main : List EngineCall} {history : List (Unit × Unit)}
    (hkeeps : ∀ history e, Reach main history e → e.KeepsReady) (reach : Reach main history e) :
    ∃ xs, e.Together xs ∨ e.Apart xs := by
  refine reach.invariant_along (I := fun e => ∃ xs, e.Together xs ∨ e.Apart xs)
    ⟨[0], Or.inl (together_started main)⟩ ?_
  rintro before e ⟨⟩ e' r reach ⟨xs, h | h⟩ hs
  · exact h.step hs
  · obtain ⟨ys, h'⟩ := h.step (hkeeps before e reach) hs
    exact ⟨ys, Or.inr h'⟩

theorem ended_reached {main : List EngineCall} {history : List (Unit × Unit)}
    (reach : Reach main history e) : e.Ended := by
  refine reach.invariant ?_ fun _ _ _ _ h hs => h.step hs
  intro c hc
  rw [List.mem_singleton.mp hc]
  exact fun hd => nomatch hd

/-- Once `start` returns there is nothing on the list and nothing current. -/
theorem Apart.not_live (h : e.Apart xs) (hr : e.returned = true) : ¬ e.Live k := by
  obtain ⟨hidle, hempty⟩ := h.empty hr
  have hxs : xs = [] := h.forward.unique hempty
  rw [h.live, hidle, hxs]
  simp

theorem all_done_of_keepsReady (main : List EngineCall)
    (hkeeps : ∀ history e, Reach main history e → e.KeepsReady) :
    ∀ history e, Reach main history e → e.returned = true → e.AllDone := by
  intro history e reach hr c hc
  have hdeleted : c.deleted = true := by
    obtain ⟨xs, h | h⟩ := phase_reached hkeeps reach
    · obtain ⟨c, _, hcur⟩ := h.current
      exact nomatch (h.chain.idle hr).symm.trans hcur
    · obtain ⟨k, hk⟩ := List.mem_iff_getElem?.mp hc
      have hlive : ¬ e.Live k := h.not_live hr
      simpa [Live, deref, hk, Option.filter] using hlive
  exact ⟨hdeleted, ended_reached reach c hc hdeleted⟩

/-- The test's two printers, each passing control to the other. -/
theorem all_done_printers : ∃ history e,
    Reach [.run [.sched 2, .sched 2, .sched 2], .run [.sched 1, .sched 1], .sched 1] history e ∧
      e.returned = true ∧ e.AllDone := by
  obtain ⟨history, e, reach, _, hr⟩ := PartialRun.reach_of_check step
    (started [.run [.sched 2, .sched 2, .sched 2], .run [.sched 1, .sched 1], .sched 1])
    (List.replicate 14 ()) (fun e => e.returned = true) (by decide)
  refine ⟨history, e, reach, hr, all_done_of_keepsReady _ ?_ history e reach hr⟩
  exact PartialRun.holds_of_halted 15 (by decide) (by decide)

/-- `main` yields to the coroutine that it has created, which yields back: that one
is off the list by then, and `start` returns while it has more to do. -/
theorem suspended_forever : ∃ history e,
    Reach [.run [.yield, .yield], .yield] history e ∧ e.returned = true ∧ ¬ e.AllDone := by
  obtain ⟨history, e, reach, _, hr, hleft⟩ := PartialRun.reach_of_check step
    (started [.run [.yield, .yield], .yield]) (List.replicate 5 ())
    (fun e => e.returned = true ∧ (e.contexts.all fun c => c.script.isEmpty) = false) (by decide)
  refine ⟨history, e, reach, hr, fun hdone => ?_⟩
  have hall : (e.contexts.all fun c => c.script.isEmpty) = true :=
    List.all_eq_true.mpr fun c hc => List.isEmpty_iff.mpr (hdone c hc).2
  rw [hall] at hleft
  cases hleft

end Engine

end Afina
