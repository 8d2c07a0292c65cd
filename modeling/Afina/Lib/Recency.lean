import Afina.Lib.KeyedList

namespace Recency

open KeyedList TailShed

inductive Access (K V : Type)
  | put (k : K) (v : V)
  | add (k : K) (v : V)
  | get (k : K)
deriving DecidableEq, Repr

inductive Answer (V : Type)
  | status (ok : Bool)
  | value (found : Option V)
deriving DecidableEq, Repr

section

variable {K V : Type} [BEq K]

/-- Write an association into a list with room for so many, most recent first. -/
def insert (room : Nat) (k : K) (v : V) (l : List (K × V)) : List (K × V) :=
  ((k, v) :: others k l).take room

/-- The cache of the textbooks: a write or a hit makes its key the most recent, and
what is too much is the least recent. -/
def step (room : Nat) (l : List (K × V)) : Access K V → List (K × V) × Answer V
  | .put k v => (insert room k v l, .status (decide (0 < room)))
  | .add k v =>
    match l.lookup k with
    | none => (insert room k v l, .status (decide (0 < room)))
    | some _ => (l, .status false)
  | .get k =>
    match l.lookup k with
    | none => (l, .value none)
    | some v => ((k, v) :: others k l, .value (some v))

def run (room : Nat) : List (K × V) → List (Access K V) → List (K × V) × List (Answer V)
  | l, [] => (l, [])
  | l, a :: rest =>
    ((run room (step room l a).1 rest).1, (step room l a).2 :: (run room (step room l a).1 rest).2)

end

/-- Without its last element a list is part of the longer one without its last. -/
theorem dropLast_sublist_dropLast {α : Type} {l l' : List α} (h : l.Sublist l') :
    l.dropLast.Sublist l'.dropLast := by
  rcases List.eq_nil_or_concat l' with rfl | ⟨front, last, rfl⟩
  · rw [List.sublist_nil.mp h]
  · rw [List.concat_eq_append] at h ⊢
    obtain ⟨first, second, rfl, hfirst, hsecond⟩ := List.sublist_append_iff.mp h
    rw [List.dropLast_concat]
    rcases List.sublist_singleton.mp hsecond with rfl | rfl
    · rw [List.append_nil]
      exact (List.dropLast_sublist first).trans hfirst
    · rw [List.dropLast_concat]
      exact hfirst

theorem take_sublist_take {α : Type} {l l' : List α} (h : l.Sublist l') {room room' : Nat}
    (hl : l.length ≤ room + 1) (hl' : l'.length ≤ room' + 1)
    (hgap : l'.length + room ≤ l.length + room') : (l.take room).Sublist (l'.take room') := by
  by_cases hfull : l'.length ≤ room'
  · rw [List.take_of_length_le hfull]
    exact (List.take_sublist room l).trans h
  · have hlength : l.length = room + 1 := by omega
    have hlength' : l'.length = room' + 1 := by omega
    have htake : l.take room = l.dropLast := by
      rw [List.dropLast_eq_take, hlength]
      rfl
    have htake' : l'.take room' = l'.dropLast := by
      rw [List.dropLast_eq_take, hlength']
      rfl
    rw [htake, htake']
    exact dropLast_sublist_dropLast h

section

variable {K V : Type} {room room' : Nat} {l l' : List (K × V)}

/-- One cache has what the other has, in the same order, and is not nearer to being
full. -/
structure Covers (room room' : Nat) (l l' : List (K × V)) : Prop where
  part : l.Sublist l'
  distinct : Distinct l'
  within : l.length ≤ room
  within' : l'.length ≤ room'
  gap : l'.length + room ≤ l.length + room'

theorem covers_nil (h : room ≤ room') : Covers room room' ([] : List (K × V)) [] :=
  ⟨.refl [], List.nodup_nil, Nat.zero_le _, Nat.zero_le _, by simpa using h⟩

theorem Covers.distinct_part (h : Covers room room' l l') : Distinct l :=
  h.distinct.sublist (h.part.map _)

variable [BEq K]

theorem Covers.others (h : Covers room room' l l') (k : K) :
    (others k l).Sublist (others k l') := h.part.filter _

variable [LawfulBEq K]

theorem length_others {k : K} {v : V} (hd : Distinct l) (h : l.lookup k = some v) :
    (others k l).length + 1 = l.length :=
  (perm_cons_others hd h).length_eq.symm

theorem Covers.lookup (h : Covers room room' l l') {k : K} {v : V} (hl : l.lookup k = some v) :
    l'.lookup k = some v :=
  lookup_of_mem h.distinct (h.part.subset (mem_of_lookup hl))

/-- A key that only the larger cache has costs the smaller one a place more. -/
theorem Covers.length_others (h : Covers room room' l l') (k : K) :
    (KeyedList.others k l').length + room ≤ (KeyedList.others k l).length + room' ∧
      (KeyedList.others k l).length ≤ room ∧ (KeyedList.others k l').length ≤ room' := by
  have hgap := h.gap
  have hwithin := h.within
  have hwithin' := h.within'
  cases hl : l.lookup k with
  | some v =>
    have hlength := Recency.length_others h.distinct_part hl
    have hlength' := Recency.length_others h.distinct (h.lookup hl)
    omega
  | none =>
    rw [others_eq_self hl]
    cases hl' : l'.lookup k with
    | some v =>
      have hlength' := Recency.length_others h.distinct hl'
      omega
    | none =>
      rw [others_eq_self hl']
      omega

theorem Covers.insert (h : Covers room room' l l') (k : K) (v : V) :
    Covers room room' (insert room k v l) (insert room' k v l') := by
  obtain ⟨hgap, hwithin, hwithin'⟩ := h.length_others k
  have hdistinct : Distinct ((k, v) :: KeyedList.others k l') :=
    (h.distinct.others k).cons (lookup_others_self k l')
  refine ⟨?_, hdistinct.sublist ((List.take_sublist _ _).map _), ?_, ?_, ?_⟩
  · refine take_sublist_take ((h.others k).cons_cons _) ?_ ?_ ?_ <;>
      simp only [List.length_cons] <;> omega
  · simp [Recency.insert]
  · simp [Recency.insert]
  · simp only [Recency.insert, List.length_take, List.length_cons]
    omega

theorem Covers.touch (h : Covers room room' l l') {k : K} {v : V} (hl : l.lookup k = some v) :
    Covers room room' ((k, v) :: KeyedList.others k l) ((k, v) :: KeyedList.others k l') := by
  have hlength := Recency.length_others h.distinct_part hl
  have hlength' := Recency.length_others h.distinct (h.lookup hl)
  have hgap := h.gap
  have hwithin := h.within
  have hwithin' := h.within'
  refine ⟨(h.others k).cons_cons _, (h.distinct.others k).cons (lookup_others_self k l'), ?_, ?_, ?_⟩
  · rw [List.length_cons]
    omega
  · rw [List.length_cons]
    omega
  · rw [List.length_cons, List.length_cons]
    omega

/-- A hit that only the larger cache has changes nothing in the smaller one. -/
theorem Covers.touch_larger (h : Covers room room' l l') {k : K} {v : V} (hl : l.lookup k = none)
    (hl' : l'.lookup k = some v) :
    Covers room room' l ((k, v) :: KeyedList.others k l') := by
  have hlength' := Recency.length_others h.distinct hl'
  have hgap := h.gap
  have hwithin' := h.within'
  have hpart := h.others k
  rw [others_eq_self hl] at hpart
  refine ⟨hpart.cons _, (h.distinct.others k).cons (lookup_others_self k l'), h.within, ?_, ?_⟩
  · rw [List.length_cons]
    omega
  · rw [List.length_cons]
    omega

/-- Any access but an `add` keeps this, and finds in the larger cache what it finds in
the smaller one. -/
theorem Covers.step (h : Covers room room' l l') {a : Access K V} (hno : ∀ k v, a ≠ .add k v) :
    Covers room room' (step room l a).1 (step room' l' a).1 ∧
      ∀ v, (step room l a).2 = .value (some v) → (step room' l' a).2 = .value (some v) := by
  cases a with
  | put k v => exact ⟨h.insert k v, by simp [Recency.step]⟩
  | add k v => exact absurd rfl (hno k v)
  | get k =>
    cases hl : l.lookup k with
    | some v =>
      have hl' := h.lookup hl
      simp only [Recency.step, hl, hl']
      exact ⟨h.touch hl, fun _ he => he⟩
    | none =>
      cases hl' : l'.lookup k with
      | some v =>
        simp only [Recency.step, hl, hl']
        exact ⟨h.touch_larger hl hl', by simp⟩
      | none =>
        simp only [Recency.step, hl, hl']
        exact ⟨h, by simp⟩

/-- Over a whole run the larger cache has every hit that the smaller one has. -/
theorem Covers.run (h : Covers room room' l l') {accesses : List (Access K V)}
    (hno : ∀ a ∈ accesses, ∀ k v, a ≠ .add k v) :
    Covers room room' (run room l accesses).1 (run room' l' accesses).1 ∧
      ∀ (i : Nat) v, (run room l accesses).2[i]? = some (.value (some v)) →
        (run room' l' accesses).2[i]? = some (.value (some v)) := by
  induction accesses generalizing l l' with
  | nil => exact ⟨h, by simp [Recency.run]⟩
  | cons a rest ih =>
    obtain ⟨hnext, hhit⟩ := h.step (hno a List.mem_cons_self)
    obtain ⟨hlast, hlater⟩ := ih hnext fun a' ha' => hno a' (List.mem_cons_of_mem a ha')
    refine ⟨hlast, fun i v hi => ?_⟩
    cases i with
    | zero =>
      simp only [Recency.run, List.getElem?_cons_zero, Option.some.injEq] at hi ⊢
      exact hhit v hi
    | succ i =>
      simp only [Recency.run, List.getElem?_cons_succ] at hi ⊢
      exact hlater i v hi

end

end Recency
