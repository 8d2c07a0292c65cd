import Afina.EngineCore
import Mathlib.Data.List.Perm.Subperm

namespace Afina

open LinkedList

namespace Engine

variable {e e' : Engine} {xs : List Nat} {c : Nat}

/-- The list behind `alive` is well formed: it ends, passes each of its contexts
once and only those of coroutines that have not finished, and is linked both ways.
No link that the unlinking of a coroutine at its end follows leads to a deleted
context. -/
structure Sound (e : Engine) : Prop where
  list : ∃ xs, Linked e.next e.prev e.alive xs ∧ xs.Nodup ∧ ∀ k ∈ xs, e.Live k
  unlink : ∀ c, e.AtEnd c →
    (∀ k, e.prev c = some k → e.Live k) ∧ ∀ k, e.next c = some k → e.Live k

/-- Where the coroutine at its end is off the list since a `yield`, its old `next`
leads to no deleted context and into the list only at its head. -/
def Unlinks (e : Engine) : Prop := ∀ c, e.AtEnd c → c ∉ e.ready →
  ∀ k, e.next c = some k → e.Live k ∧ (k ∈ e.ready → e.alive = some k)

/-- The invariant behind both: what is off the list has lost its `prev`. -/
structure Chain (e : Engine) (xs : List Nat) : Prop where
  chained : Chained e.alive e.Live e.next e.prev xs
  idle : e.returned = true → e.curRoutine = none

theorem Shows.chain {routine alive : Option Nat} {live : Nat → Prop} {next prev : Nat → Option Nat}
    (h : e.Shows routine alive live next prev) (hc : Chained alive live next prev xs) :
    e.Chain xs := by
  have hlive : e.Live = live := funext fun k => propext (h.live k)
  refine ⟨?_, fun hr => ?_⟩
  · rw [h.alive, hlive, funext h.next, funext h.prev]
    exact hc
  · rw [h.running] at hr
    cases hr

theorem chain_started (main : List EngineCall) : (started main).Chain [0] := by
  have hlive : ∀ k ∈ [0], (started main).Live k := by
    intro k hk
    obtain rfl := List.mem_singleton.mp hk
    rfl
  refine ⟨⟨⟨⟨rfl, rfl⟩, rfl, trivial⟩, hlive, fun k hk => ?_⟩, fun hr => nomatch hr⟩
  have hk0 : k ≠ 0 := by simpa using hk
  simp [prev, deref, started, hk0]

theorem ready_eq (hf : Forward e.next e.alive xs) (hl : ∀ k ∈ xs, e.Live k) : e.ready = xs := by
  refine hf.walk ?_
  have hsub : xs ⊆ List.range e.contexts.length := fun k hk =>
    List.mem_range.mpr (live_lt (hl k hk))
  have hlength := (List.subperm_of_subset hf.nodup hsub).length_le
  rwa [List.length_range] at hlength

theorem Chain.ready (h : e.Chain xs) : e.ready = xs :=
  ready_eq h.chained.linked.forward h.chained.live

theorem Chain.step {r : Unit} (h : e.Chain xs) (hu : e.Unlinks) (hs : e.step () = some (e', r)) :
    ∃ ys, e'.Chain ys := by
  obtain ⟨_, hmoves⟩ := moves_of_step hs
  cases hmoves with
  | stopped idle empty shut =>
    subst shut
    exact ⟨xs, h.chained, fun _ => idle⟩
  | created routine fresh head shows => exact ⟨_, shows.chain (h.chained.push fresh)⟩
  | popped head live target shows =>
    have hc := h.chained
    rw [head] at hc
    exact ⟨_, shows.chain hc.pop⟩
  | switched routine target live shows => exact ⟨xs, shows.chain h.chained⟩
  | @finished c ended prev next shows =>
    by_cases hc : c ∈ xs
    · exact ⟨_, shows.chain (h.chained.unlink hc)⟩
    · refine ⟨xs, shows.chain (h.chained.unlink_off hc fun k hk hnext => ?_)⟩
      have hold := hu c ended (by rwa [h.ready]) k hnext
      exact hold.2 (by rwa [h.ready])

theorem Chain.sound (h : e.Chain xs) (hu : e.Unlinks) : e.Sound := by
  have hlinked := h.chained.linked
  refine ⟨⟨xs, hlinked, hlinked.forward.nodup, h.chained.live⟩, fun c hend => ?_⟩
  by_cases hc : c ∈ xs
  · exact ⟨fun k hk => h.chained.live k (hlinked.prev_mem hc hk),
      fun k hk => h.chained.live k (hlinked.forward.next_mem hc hk)⟩
  · refine ⟨fun k hk => ?_, fun k hk => (hu c hend (by rwa [h.ready]) k hk).1⟩
    rw [h.chained.off c hc] at hk
    cases hk

theorem exists_modify {k : Nat} (f : Context → Context) (h : e.Live k) :
    ∃ e', e.modify k f = some e' := by
  obtain ⟨c, hc⟩ := Option.isSome_iff_exists.mp h
  exact ⟨_, Option.map_eq_some_iff.mpr ⟨c, hc, rfl⟩⟩

theorem exists_modifyAt {p : Option Nat} (f : Context → Context)
    (h : ∀ k, p = some k → e.Live k) : ∃ e', e.modifyAt p f = some e' := by
  cases p with
  | none => exact ⟨e, rfl⟩
  | some k => exact exists_modify f (h k rfl)

/-- A coroutine whose links lead to no deleted context comes through its end. -/
theorem exists_step_of_atEnd (hrun : e.returned = false) (hend : e.AtEnd c)
    (hprev : ∀ k, e.prev c = some k → e.Live k) (hnext : ∀ k, e.next c = some k → e.Live k) :
    ∃ e', e.step () = some (e', ()) ∧
      e'.Shows none (if e.alive = some c then e.next c else e.alive) (fun j => j ≠ c ∧ e.Live j)
        (fun j => if j = c then none else if e.prev c = some j then e.next c else e.next j)
        (fun j => if j = c then none else if e.next c = some j then e.prev c else e.prev j) := by
  obtain ⟨hc, hscript⟩ := hend
  obtain ⟨ctx, hctx, hscript⟩ := Option.map_eq_some_iff.mp hscript
  have hself := Shows.self hrun
  obtain ⟨u, hu⟩ : ∃ u, e.setNext (e.prev c) (e.next c) = some u := exists_modifyAt _ hprev
  have hshows := (hself.setNext hu).2
  obtain ⟨v, hv⟩ : ∃ v, u.setPrev (e.next c) (e.prev c) = some v :=
    exists_modifyAt _ fun k hk => (hshows.live k).mpr (hnext k hk)
  have hlive := ((hshows.setPrev hv).2.live c).mpr (hself.live_of_deref hctx)
  have hfinish : ∃ e', e.finish c = some e' := by
    simp only [finish, hctx, hself.next_of_deref hctx, hself.prev_of_deref hctx, hu, hv,
      Option.bind_eq_bind, Option.bind_some]
    refine exists_modify _ ?_
    split <;> exact hlive
  obtain ⟨e', he'⟩ := hfinish
  rw [hc] at hself
  refine ⟨e', ?_, (hself.finish he').2.2⟩
  simp [Engine.step, hrun, hc, hctx, hscript, he']

/-- A list that is still sound behind the end of a coroutine has not been cut by it. -/
theorem Chain.unlinks (h : e.Chain xs) (hsound : e.Sound)
    (hafter : ∀ e', e.step () = some (e', ()) → e'.Sound) : e.Unlinks := by
  intro c hend hc k hnext
  rw [h.ready] at hc ⊢
  obtain ⟨hprev, hlive⟩ := hsound.unlink c hend
  refine ⟨hlive k hnext, fun hk => ?_⟩
  have hrun : e.returned = false := by
    refine Bool.eq_false_iff.mpr fun hr => ?_
    exact nomatch (h.idle hr).symm.trans hend.1
  obtain ⟨e', hs, hshows⟩ := exists_step_of_atEnd hrun hend hprev hlive
  obtain ⟨ys, hlinked, _, _⟩ := (hafter e' hs).list
  have hoff : e.prev c = none := h.chained.off c hc
  have hne : ∀ j ∈ xs, j ≠ c := fun j hj heq => hc (heq ▸ hj)
  -- forwards the list is what it was, so it must still be so backwards
  have halive : e'.alive = e.alive := by
    rw [hshows.alive, if_neg (h.chained.head_ne hc)]
  have hforward : Forward e'.next e'.alive xs := by
    rw [halive]
    refine h.chained.linked.forward.congr fun j hj => ?_
    rw [hshows.next, if_neg (hne j hj), hoff]
    simp
  obtain rfl := hlinked.forward.unique hforward
  have hcut : e'.prev k = none := by
    rw [hshows.prev, if_neg (hne k hk), if_pos hnext, hoff]
  rw [← halive]
  exact (hlinked.head_iff hk).mpr hcut

theorem links_sound_iff (main : List EngineCall) :
    (∀ history e, Reach main history e → e.Sound) ↔
      ∀ history e, Reach main history e → e.Unlinks := by
  refine PartialRun.holds_iff (P := fun e => ∃ xs, e.Chain xs) ⟨[0], chain_started main⟩ ?_ ?_ ?_
  · rintro e ⟨⟩ e' r ⟨xs, h⟩ hu hs
    exact h.step hu hs
  · rintro e ⟨xs, h⟩ hu
    exact h.sound hu
  · rintro e ⟨xs, h⟩ hsound hafter
    exact h.unlinks hsound fun e' hs => hafter () e' () hs

/-- A coroutine that has been taken off the list creates another one; its own end
then cuts the link from the first of the two contexts behind `alive` to the other. -/
theorem unlinked_twice : ∃ history e,
    Reach [.run [.run []], .yield] history e ∧ ¬ e.Sound := by
  obtain ⟨history, e, reach, _, halive, hnext, hprev⟩ := PartialRun.reach_of_check step
    (started [.run [.run []], .yield]) [(), (), (), ()]
    (fun e => e.alive = some 2 ∧ e.next 2 = some 0 ∧ e.prev 0 = none) (by decide)
  refine ⟨history, e, reach, fun hsound => ?_⟩
  obtain ⟨xs, hlinked, _, _⟩ := hsound.list
  have h2 : 2 ∈ xs := (halive ▸ hlinked.forward).head_mem
  have h0 : 0 ∈ xs := hlinked.forward.next_mem h2 hnext
  exact nomatch halive.symm.trans ((hlinked.head_iff h0).mpr hprev)

end Engine

end Afina
