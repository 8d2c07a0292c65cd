import Afina.Lib.TailShed

namespace KeyedList

open TailShed

section

variable {K V : Type}

def Distinct (l : List (K × V)) : Prop := (l.map Prod.fst).Nodup


variable [BEq K]

def others (k : K) (l : List (K × V)) : List (K × V) := l.filter (fun e => e.1 != k)

theorem Distinct.others {l : List (K × V)} (hd : Distinct l) (k : K) : Distinct (others k l) :=
  hd.sublist (List.filter_sublist.map _)

/-- Cutting a tail off can hide a key but never change its value. -/
theorem lookup_of_prefix {k : K} {v : V} {kept l : List (K × V)} (h : kept <+: l)
    (hl : kept.lookup k = some v) : l.lookup k = some v := by
  obtain ⟨rest, rfl⟩ := h
  simp [List.lookup_append, hl]

variable [LawfulBEq K]

theorem mem_others {k : K} {l : List (K × V)} {e : K × V} :
    e ∈ others k l ↔ e ∈ l ∧ e.1 ≠ k := by
  simp [others]

@[simp] theorem lookup_others_self (k : K) (l : List (K × V)) : (others k l).lookup k = none := by
  rw [List.lookup_eq_none_iff]
  intro e he
  have hne := (mem_others.mp he).2
  simpa using hne.symm

theorem lookup_cons_of_ne {k k' : K} (h : k' ≠ k) (v : V) (l : List (K × V)) :
    ((k, v) :: l).lookup k' = l.lookup k' := by
  rw [List.lookup_cons, beq_false_of_ne h]

theorem lookup_others_of_ne {k k' : K} (h : k' ≠ k) (l : List (K × V)) :
    (others k l).lookup k' = l.lookup k' := by
  induction l with
  | nil => rfl
  | cons e l ih =>
    obtain ⟨key, v⟩ := e
    by_cases hk : key = k
    · have ho : others k ((key, v) :: l) = others k l := by simp [others, hk]
      rw [ho, ih, lookup_cons_of_ne (by simpa [hk] using h)]
    · have ho : others k ((key, v) :: l) = (key, v) :: others k l := by simp [others, hk]
      rw [ho, List.lookup_cons, List.lookup_cons, ih]

theorem mem_of_lookup {k : K} {v : V} {l : List (K × V)} (h : l.lookup k = some v) : (k, v) ∈ l := by
  obtain ⟨front, back, hl, _⟩ := List.lookup_eq_some_iff.mp h
  simp [hl]

theorem lookup_of_mem {k : K} {v : V} {l : List (K × V)} (hd : Distinct l) (h : (k, v) ∈ l) :
    l.lookup k = some v := by
  obtain ⟨front, back, rfl⟩ := List.append_of_mem h
  refine List.lookup_eq_some_iff.mpr ⟨front, back, rfl, ?_⟩
  intro e he
  have hne : e.1 ≠ k := by
    unfold Distinct at hd
    rw [List.map_append, List.nodup_append] at hd
    exact hd.2.2 e.1 (List.mem_map_of_mem he) k (by simp)
  simpa using hne.symm

theorem lookup_eq_none {k : K} {l : List (K × V)} : l.lookup k = none ↔ ∀ v, (k, v) ∉ l := by
  rw [List.lookup_eq_none_iff]
  constructor
  · intro h v hm
    have := h _ hm
    simp at this
  · intro h e he
    have hne : k ≠ e.1 := fun heq => h e.2 (by simpa [heq] using he)
    simpa using hne

theorem others_eq_self {k : K} {l : List (K × V)} (h : l.lookup k = none) : others k l = l := by
  refine List.filter_eq_self.mpr fun e he => ?_
  have hne : e.1 ≠ k := fun heq => lookup_eq_none.mp h e.2 (by simpa [← heq] using he)
  simpa using hne

theorem Distinct.cons {k : K} {v : V} {l : List (K × V)} (hd : Distinct l) (h : l.lookup k = none) :
    Distinct ((k, v) :: l) := by
  unfold Distinct
  rw [List.map_cons, List.nodup_cons]
  refine ⟨fun hm => ?_, hd⟩
  obtain ⟨e, he, hk⟩ := List.mem_map.mp hm
  subst hk
  exact lookup_eq_none.mp h e.2 he

/-- An entry brought to the front of the others gives a reordering of the list. -/
theorem perm_cons_others {k : K} {v : V} {l : List (K × V)} (hd : Distinct l)
    (h : l.lookup k = some v) : l.Perm ((k, v) :: others k l) := by
  induction l with
  | nil => simp at h
  | cons e l ih =>
    obtain ⟨key, u⟩ := e
    have hd' : key ∉ l.map Prod.fst ∧ Distinct l := by simpa [Distinct] using hd
    by_cases hk : key = k
    · subst hk
      have hu : u = v := by simpa using h
      have hn : l.lookup key = none :=
        lookup_eq_none.mpr fun v' hm => hd'.1 (List.mem_map_of_mem hm)
      have ho : others key ((key, u) :: l) = l := by
        simpa [others] using others_eq_self hn
      rw [ho, hu]
    · have hl : l.lookup k = some v := by rwa [lookup_cons_of_ne (Ne.symm hk)] at h
      have ho : others k ((key, u) :: l) = (key, u) :: others k l := by simp [others, hk]
      rw [ho]
      exact ((ih hd'.2 hl).cons _).trans (List.Perm.swap _ _ _)

theorem weight_others {w : K × V → Nat} {k : K} {v : V} {l : List (K × V)} (hd : Distinct l)
    (h : l.lookup k = some v) : weight w l = w (k, v) + weight w (others k l) := by
  simpa using weight_perm w (perm_cons_others hd h)

/-- Looking up an entry that was kept and bringing it to the front of both
lists leaves the kept part the longest one. -/
theorem longestWithin_touch {w : K × V → Nat} {limit : Int} {l part : List (K × V)} {k : K} {v : V}
    (h : LongestWithin w limit l part) (hd : Distinct l) (hp : part.lookup k = some v) :
    LongestWithin w limit ((k, v) :: others k l) ((k, v) :: others k part) := by
  obtain ⟨rest, rfl⟩ := h.front
  have hd' := hd
  unfold Distinct at hd'
  rw [List.map_append, List.nodup_append] at hd'
  have hrest : rest.lookup k = none := lookup_eq_none.mpr fun v' hv' =>
    hd'.2.2 k (List.mem_map_of_mem (mem_of_lookup hp)) k (List.mem_map_of_mem hv') rfl
  have hsplit : (k, v) :: others k (part ++ rest) = ((k, v) :: others k part) ++ rest := by
    rw [others, List.filter_append, ← others, ← others, others_eq_self hrest, List.cons_append]
  rw [hsplit]
  exact h.perm (perm_cons_others hd'.1 hp).symm

end

end KeyedList
