import Afina.StoreShape

namespace Afina

open TailShed KeyedList

/-- The states of a run of the loop of `FreeSpace`, after any number of passes. -/
inductive Store.Passes (x : Int32) : Store → Store → Prop
  | start (s : Store) : Passes x s s
  | pass {s u w : Store} (earlier : Passes x s u) (test : u.currentSize + x > u.maxSize)
      (evict : u.evictBack = some w) : Passes x s w

theorem Store.Passes.cons {x : Int32} {s u w : Store} (test : s.currentSize + x > s.maxSize)
    (evict : s.evictBack = some u) (later : u.Passes x w) : s.Passes x w := by
  induction later with
  | start => exact .pass (.start s) test evict
  | pass _ htest hevict ih => exact .pass ih htest hevict

theorem Store.Linked.evictBack {s t : Store} (h : s.Linked) (ht : s.evictBack = some t) :
    t.Linked := by
  obtain ⟨last, hlast, _⟩ := Option.bind_eq_some_iff.mp ht
  have hl : s.lru = s.lru.dropLast ++ [last] := (List.dropLast_append_getLast? last hlast).symm
  have hsame := Store.keep_evictBack hl ht (List.prefix_refl _)
  have hself : t.keep s.lru.dropLast = t := by
    rw [Store.evictBack_concat hl] at ht
    cases ht
    exact Store.keep_self _
  rw [← hself, hsame]
  exact h.keep (List.dropLast_prefix _)

theorem Store.Linked.passes {x : Int32} {s u : Store} (h : s.Linked) (hp : s.Passes x u) :
    u.Linked := by
  induction hp with
  | start => exact h
  | pass _ _ evict ih => exact ih.evictBack evict

/-- `FreeSpace` is called on the store itself for a new key, and with its node
spliced to the front for a present one. -/
theorem Store.Linked.freeSpaceCall_cases {s t : Store} (h : s.Linked) {op : Op} {x : Int32}
    (hcall : s.freeSpaceCall op = some (t, x)) :
    (t = s ∧ s.cacheMap op.key = none) ∨ ∃ n ∈ s.lru, n.key = op.key ∧ t = s.touched n := by
  cases h.acts op with
  | inserts absent call =>
    cases call.symm.trans hcall
    exact Or.inl ⟨rfl, absent⟩
  | overwrites mem key present call =>
    cases call.symm.trans hcall
    exact Or.inr ⟨_, mem, key, rfl⟩
  | finds => cases hcall
  | fails quiet call => cases call.symm.trans hcall
  | hits => cases hcall

theorem Store.Linked.freeSpaceCall {s t : Store} (h : s.Linked) {op : Op} {x : Int32}
    (hcall : s.freeSpaceCall op = some (t, x)) : t.Linked := by
  rcases h.freeSpaceCall_cases hcall with ⟨rfl, _⟩ | ⟨n, hn, _, rfl⟩
  · exact h
  · exact h.touched hn

/-- `FreeSpace` has no result only when its loop comes to an empty list. -/
theorem Store.freeSpace_none {s : Store} {x : Int32} (h : s.freeSpace x = none) :
    ∃ u, s.Passes x u ∧ u.lru = [] ∧ u.currentSize + x > u.maxSize := by
  unfold Store.freeSpace at h
  obtain ⟨l, hl⟩ : ∃ l, s.lru = l := ⟨_, rfl⟩
  rw [hl] at h
  induction l using List.reverseRecOn generalizing s with
  | nil =>
    simp only [List.length_nil, Store.freeSpaceLoop] at h
    split at h
    next hfull => exact ⟨s, .start s, hl, hfull⟩
    next => cases h
  | append_singleton front last ih =>
    simp only [List.length_append, List.length_singleton, Store.freeSpaceLoop] at h
    split at h
    next hfull =>
      have ht := Store.evictBack_concat hl
      rw [ht, Option.bind_eq_bind, Option.bind_some] at h
      obtain ⟨u, hu, hempty, htest⟩ := ih h rfl
      exact ⟨u, .cons hfull ht hu, hempty, htest⟩
    next => cases h

theorem Store.freeSpace_passes {s t : Store} {x : Int32} (h : s.freeSpace x = some t) :
    s.Passes x t := by
  unfold Store.freeSpace at h
  generalize s.lru.length = passes at h
  induction passes generalizing s with
  | zero =>
    simp only [Store.freeSpaceLoop] at h
    split at h
    next => cases h
    next => cases h; exact .start _
  | succ passes ih =>
    simp only [Store.freeSpaceLoop] at h
    split at h
    next hfull =>
      obtain ⟨u, hu, hrest⟩ := Option.bind_eq_some_iff.mp h
      exact .cons hfull hu (ih hrest)
    next => cases h; exact .start _

/-- The call takes the back of an empty list in the loop of its `FreeSpace`, or
the front of one after it. -/
def Store.TakesEmpty (s : Store) (op : Op) : Prop :=
  ∃ t x u, s.freeSpaceCall op = some (t, x) ∧ t.Passes x u ∧ u.lru = [] ∧
    (u.currentSize + x > u.maxSize ∨ s.cacheMap op.key ≠ none)

theorem Store.takesEmpty_of_freeSpace {s t : Store} {op : Op} {x : Int32}
    (hcall : s.freeSpaceCall op = some (t, x)) (hnone : t.freeSpace x = none) :
    s.TakesEmpty op := by
  obtain ⟨u, hu, hempty, htest⟩ := Store.freeSpace_none hnone
  exact ⟨t, x, u, hcall, hu, hempty, Or.inl htest⟩

theorem Store.takesEmpty_of_front {s t u : Store} {op : Op} {x : Int32} {it : Nat}
    (hcall : s.freeSpaceCall op = some (t, x)) (hsome : t.freeSpace x = some u)
    (hempty : u.lru = []) (hm : s.cacheMap op.key = some it) : s.TakesEmpty op :=
  ⟨t, x, u, hcall, Store.freeSpace_passes hsome, hempty, Or.inr (by simp [hm])⟩

theorem Store.lru_of_assignFront_none {u : Store} {v : Bytes} (h : u.assignFront v = none) :
    u.lru = [] := by
  unfold Store.assignFront at h
  split at h
  next hl => exact hl
  next => cases h

/-- A call without a result takes the front or the back of an empty list, or is a
`Delete` that hits: no iterator is ever dangling before that. -/
theorem Store.Linked.takesEmpty_of_none {s : Store} (h : s.Linked) {op : Op}
    (hs : s.step op = none) (hmiss : s.DeleteMisses op) : s.TakesEmpty op := by
  cases h.acts op with
  | @inserts _ x absent call stores step =>
    cases hf : s.freeSpace x with
    | none => exact Store.takesEmpty_of_freeSpace call hf
    | some u => simp [step, hf] at hs
  | @overwrites _ x n mem key present call stores added step =>
    cases hf : (s.touched n).freeSpace x with
    | none => exact Store.takesEmpty_of_freeSpace call hf
    | some u =>
      rw [step, hf, Option.bind_some, Option.map_eq_none_iff] at hs
      exact Store.takesEmpty_of_front call hf (Store.lru_of_assignFront_none hs) present
  | finds mem step => cases step.symm.trans hs
  | fails quiet call step => cases step.symm.trans hs
  | hits present => exact absurd hmiss present

theorem Store.freeSpace_of_pass {s u : Store} {x : Int32} (test : s.currentSize + x > s.maxSize)
    (evict : s.evictBack = some u) : s.freeSpace x = u.freeSpace x := by
  obtain ⟨last, hlast, hu⟩ := Option.bind_eq_some_iff.mp evict
  have hlength : s.lru.length = u.lru.length + 1 := by
    cases Option.some.inj hu
    have := List.length_pos_of_mem (List.mem_of_getLast? hlast)
    simp only [List.length_dropLast]
    omega
  rw [Store.freeSpace, hlength, Store.freeSpaceLoop, if_pos test, evict]
  rfl

theorem Store.Passes.freeSpace_eq {s u : Store} {x : Int32} (h : s.Passes x u) :
    s.freeSpace x = u.freeSpace x := by
  induction h with
  | start => rfl
  | pass _ test evict ih => exact ih.trans (Store.freeSpace_of_pass test evict)

theorem Store.Linked.step_none_of_takesEmpty {s : Store} (h : s.Linked) {op : Op}
    (hempty : s.TakesEmpty op) : s.step op = none := by
  obtain ⟨t, x, u, hcall, hpass, hnil, hwhy⟩ := hempty
  have hfree : t.freeSpace x = if u.currentSize + x > u.maxSize then none else some u := by
    rw [hpass.freeSpace_eq, Store.freeSpace, hnil, List.length_nil, Store.freeSpaceLoop]
  cases h.acts op with
  | inserts absent call stores step =>
    cases call.symm.trans hcall
    rw [step, hfree, if_pos (hwhy.resolve_right (not_not_intro absent))]
    rfl
  | overwrites mem key present call stores added step =>
    cases call.symm.trans hcall
    rw [step, hfree]
    split
    next => rfl
    next => simp [Store.assignFront, hnil]
  | finds => cases hcall
  | fails quiet call => cases call.symm.trans hcall
  | hits => cases hcall

/-- The calls that have no result. -/
theorem Store.Linked.step_isSome_iff {s : Store} (h : s.Linked) (op : Op) :
    (s.step op).isSome ↔ ¬ s.TakesEmpty op ∧ s.DeleteMisses op := by
  constructor
  · intro hsome
    refine ⟨fun hempty => ?_, ?_⟩
    · simp [h.step_none_of_takesEmpty hempty] at hsome
    · by_contra hhit
      simp [Store.step_delete_hit hhit] at hsome
  · rintro ⟨hempty, hmiss⟩
    rw [Option.isSome_iff_ne_none]
    exact fun hnone => hempty (h.takesEmpty_of_none hnone hmiss)

/-- For a limit that is not negative these are the calls that are told to evict more
than the list holds. -/
theorem Store.Valid.takesEmpty_iff {s : Store} (h : s.Valid) (op : Op) :
    s.TakesEmpty op ↔ ¬ s.cache.MakesRoom op := by
  by_cases hmiss : s.DeleteMisses op
  · have hsome := h.step_isSome_iff op
    rw [h.linked.step_isSome_iff op, and_iff_left hmiss, and_iff_left hmiss] at hsome
    exact (not_iff_comm.mp hsome).symm
  · cases op with
    | delete k =>
      refine iff_of_false ?_ (by simp [Cache.MakesRoom, Cache.request])
      rintro ⟨_, _, _, hcall, _⟩
      cases hcall
    | _ => exact absurd trivial hmiss

/-- No call of the list takes the front or the back of an empty list. -/
def NoneTakesEmpty (m : Int32) (calls : List Op) : Prop :=
  ∀ history s op, Store.Reach m history s → history.map Prod.fst ++ [op] <+: calls →
    ¬ s.TakesEmpty op

/-- No `Delete` of the list finds its key. -/
def DeletesMiss (m : Int32) (calls : List Op) : Prop :=
  ∀ history s op, Store.Reach m history s → history.map Prod.fst ++ [op] <+: calls →
    s.DeleteMisses op

theorem noneTakesEmpty_of_each {m : Int32} (hm : 0 ≤ m) {calls : List Op}
    (h : PartialRun.each Store.step (fun s op => s.cache.MakesRoom op) (Store.fresh m) calls = true) :
    NoneTakesEmpty m calls := by
  intro history s op reach hpre
  rw [(Store.Reach.valid hm reach).takesEmpty_iff op]
  exact not_not_intro (PartialRun.holds_of_each h history s op reach hpre)

/-- A list of calls can be run if and only if none of them takes the front or the
back of an empty list and no `Delete` hits. -/
theorem run_isSome_iff_deletesMiss {m : Int32} {calls : List Op} :
    (PartialRun.run Store.step (Store.fresh m) calls).isSome ↔
      NoneTakesEmpty m calls ∧ DeletesMiss m calls := by
  rw [PartialRun.run_isSome_iff]
  constructor
  · intro hsome
    constructor
    · exact fun history s op reach hpre =>
        (((Store.Reach.linked reach).step_isSome_iff op).mp (hsome history s op reach hpre)).1
    · exact fun history s op reach hpre =>
        (((Store.Reach.linked reach).step_isSome_iff op).mp (hsome history s op reach hpre)).2
  · rintro ⟨hempty, hmiss⟩ history s op reach hpre
    exact ((Store.Reach.linked reach).step_isSome_iff op).mpr
      ⟨hempty history s op reach hpre, hmiss history s op reach hpre⟩

end Afina
