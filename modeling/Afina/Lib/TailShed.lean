import Mathlib.Data.List.Infix
import Mathlib.Algebra.BigOperators.Group.List.Basic
import Mathlib.Algebra.Order.Ring.Int

namespace TailShed

section

variable {α : Type} (w : α → Nat)

def weight (xs : List α) : Nat := (xs.map w).sum

@[simp] theorem weight_nil : weight w [] = 0 := rfl

@[simp] theorem weight_cons (x : α) (xs : List α) : weight w (x :: xs) = w x + weight w xs := by
  simp [weight]

@[simp] theorem weight_append (xs ys : List α) :
    weight w (xs ++ ys) = weight w xs + weight w ys := by
  simp [weight]

theorem weight_map {γ : Type} (f : γ → α) (xs : List γ) :
    weight w (xs.map f) = weight (w ∘ f) xs := by
  simp [weight]

theorem weight_perm {xs ys : List α} (h : xs.Perm ys) : weight w xs = weight w ys :=
  (h.map w).sum_nat

/-- Drop the shortest tail that weighs at least `excess`; undefined when the
whole list is too light. -/
def shed (excess : Int) : List α → Option (List α)
  | [] => if excess ≤ 0 then some [] else none
  | x :: xs =>
    match shed excess xs with
    | some kept => some (x :: kept)
    | none => if excess ≤ weight w (x :: xs) then some [] else none

variable {w} {excess : Int}

theorem shed_isSome_iff {xs : List α} : (shed w excess xs).isSome ↔ excess ≤ weight w xs := by
  induction xs with
  | nil => by_cases h : excess ≤ 0 <;> simp [shed, h]
  | cons x xs ih =>
    cases hs : shed w excess xs with
    | some kept =>
      rw [hs] at ih
      have hle := ih.mp rfl
      simp only [shed, hs, Option.isSome_some, true_iff, weight_cons]
      omega
    | none => by_cases h : excess ≤ weight w (x :: xs) <;> simp [shed, hs, -weight_cons, h]

theorem shed_none_iff {xs : List α} : shed w excess xs = none ↔ (weight w xs : Int) < excess := by
  rw [← Option.not_isSome_iff_eq_none, shed_isSome_iff]
  omega

theorem shed_of_nonpos {xs : List α} (h : excess ≤ 0) : shed w excess xs = some xs := by
  induction xs with
  | nil => simp [shed, h]
  | cons x xs ih => simp [shed, ih]

/-- What is kept is the list without a tail that is heavy enough, and no
shorter tail is. -/
theorem shed_spec {xs kept : List α} (h : shed w excess xs = some kept) :
    ∃ dropped, xs = kept ++ dropped ∧ excess ≤ weight w dropped ∧
      ∀ shorter, shorter <:+ dropped → shorter ≠ dropped → (weight w shorter : Int) < excess := by
  induction xs generalizing kept with
  | nil =>
    simp only [shed] at h
    split at h
    next hle =>
      cases Option.some.inj h
      refine ⟨[], rfl, by simpa using hle, ?_⟩
      intro shorter hs hne
      exact absurd (List.suffix_nil.mp hs) hne
    next => simp at h
  | cons x xs ih =>
    simp only [shed] at h
    cases hs : shed w excess xs with
    | some rest =>
      rw [hs] at h
      cases Option.some.inj h
      obtain ⟨dropped, hx, hle, hmin⟩ := ih hs
      exact ⟨dropped, by rw [hx, List.cons_append], hle, hmin⟩
    | none =>
      rw [hs] at h
      dsimp only at h
      split at h
      next hle =>
        cases Option.some.inj h
        refine ⟨x :: xs, rfl, hle, ?_⟩
        intro shorter hsuf hne
        obtain ⟨front, hf⟩ := (List.suffix_cons_iff.mp hsuf).resolve_left hne
        have hlight := shed_none_iff.mp hs
        rw [← hf, weight_append] at hlight
        omega
      next => simp at h

theorem shed_isPrefix {xs kept : List α} (h : shed w excess xs = some kept) : kept <+: xs := by
  obtain ⟨dropped, hx, _⟩ := shed_spec h
  exact ⟨dropped, hx.symm⟩

/-- Any front part without which the list is light enough is part of what is kept. -/
theorem shed_maximal {xs kept part : List α} (h : shed w excess xs = some kept) (hp : part <+: xs)
    (hover : excess ≤ weight w xs - weight w part) : part <+: kept := by
  obtain ⟨dropped, hsplit, _, hmin⟩ := shed_spec h
  obtain ⟨tail, htail⟩ := hp
  have hweight : weight w xs = weight w part + weight w tail := by rw [← htail, weight_append]
  rcases List.suffix_or_suffix_of_suffix (⟨part, htail⟩ : tail <:+ xs)
      ⟨kept, hsplit.symm⟩ with hs | hs
  · by_cases he : tail = dropped
    · subst he
      have hsame : part ++ tail = kept ++ tail := htail.trans hsplit
      rw [List.append_cancel_right hsame]
    · have := hmin tail hs he
      omega
  · have hlen := hs.length_le
    have hlengths : part.length + tail.length = kept.length + dropped.length := by
      rw [← List.length_append, ← List.length_append, htail, hsplit]
    exact List.prefix_of_prefix_length_le ⟨tail, htail⟩ ⟨dropped, hsplit.symm⟩ (by omega)

/-- The longest front part of a list that weighs no more than a limit. -/
structure LongestWithin (w : α → Nat) (limit : Int) (xs part : List α) : Prop where
  front : part <+: xs
  within : (weight w part : Int) ≤ limit
  longest : ∀ other, other <+: xs → (weight w other : Int) ≤ limit → other <+: part

/-- With a new first element, what was kept sheds the excess and no more. -/
theorem LongestWithin.cons_shed {limit : Int} {xs part kept : List α} {x : α}
    (h : LongestWithin w limit xs part)
    (hs : shed w (weight w part + w x - limit) part = some kept) :
    LongestWithin w limit (x :: xs) (x :: kept) := by
  obtain ⟨dropped, hsplit, hle, _⟩ := shed_spec hs
  have hweight : weight w part = weight w kept + weight w dropped := by rw [hsplit, weight_append]
  refine ⟨List.cons_prefix_cons.mpr ⟨rfl, (shed_isPrefix hs).trans h.front⟩, ?_, ?_⟩
  · rw [weight_cons]
    omega
  · intro other ho hlight
    cases other with
    | nil => exact List.nil_prefix
    | cons y other =>
      obtain ⟨rfl, hrest⟩ := List.cons_prefix_cons.mp ho
      rw [weight_cons] at hlight
      have hpart := h.longest other hrest (by omega)
      exact List.cons_prefix_cons.mpr ⟨rfl, shed_maximal hs hpart (by omega)⟩

/-- Reordering what was kept changes nothing behind it. -/
theorem LongestWithin.perm {limit : Int} {part part' rest : List α}
    (h : LongestWithin w limit (part ++ rest) part) (hp : part'.Perm part) :
    LongestWithin w limit (part' ++ rest) part' := by
  have hsame := weight_perm w hp
  refine ⟨List.prefix_append _ _, by rw [hsame]; exact h.within, ?_⟩
  intro other ho hlight
  rcases List.prefix_or_prefix_of_prefix ho (List.prefix_append part' rest) with hpre | ⟨more, rfl⟩
  · exact hpre
  · have hmore : part ++ more <+: part := by
      refine h.longest _ (List.prefix_append_right_inj part |>.mpr ?_) ?_
      · exact (List.prefix_append_right_inj part').mp ho
      · rw [weight_append, ← hsame, ← weight_append]
        exact hlight
    have hnil : more = [] := by
      have hlen := hmore.length_le
      rw [List.length_append] at hlen
      exact List.eq_nil_of_length_eq_zero (by omega)
    rw [hnil, List.append_nil]

/-- The same function as a loop that looks at the last element first. -/
theorem shed_concat (xs : List α) (x : α) :
    shed w excess (xs ++ [x]) =
      if excess ≤ 0 then some (xs ++ [x]) else shed w (excess - w x) xs := by
  split
  next h => exact shed_of_nonpos h
  next h =>
    induction xs with
    | nil =>
      have hiff : excess ≤ (w x : Int) ↔ excess - w x ≤ 0 := by omega
      simp only [List.nil_append, shed, if_neg h, weight_cons, weight_nil, Nat.add_zero, hiff]
    | cons y ys ih =>
      have hiff : excess ≤ ((w y + (weight w ys + w x) : Nat) : Int) ↔
          excess - w x ≤ ((w y + weight w ys : Nat) : Int) := by omega
      simp only [List.cons_append, shed, ih, weight_cons, weight_append, weight_nil,
        Nat.add_zero, hiff]

theorem weight_uniform {u : Nat} {xs : List α} (h : ∀ x ∈ xs, w x = u) :
    weight w xs = u * xs.length := by
  induction xs with
  | nil => rw [weight_nil, List.length_nil, Nat.mul_zero]
  | cons x xs ih =>
    rw [weight_cons, h x List.mem_cons_self, ih fun y hy => h y (List.mem_cons_of_mem x hy),
      List.length_cons, Nat.mul_add_one, Nat.add_comm]

/-- Where all weigh the same, making room for one more sheds one at most, and leaves
as many as the limit has room for with it. -/
theorem shed_uniform {u limit : Nat} (hu : 0 < u) (hone : u ≤ limit) {xs : List α}
    (h : ∀ x ∈ xs, w x = u) (hin : weight w xs ≤ limit) :
    shed w ((weight w xs : Int) + u - limit) xs = some (xs.take (limit / u - 1)) := by
  have hweight := weight_uniform h
  have hroom : xs.length ≤ limit / u := by
    rw [Nat.le_div_iff_mul_le hu, Nat.mul_comm, ← hweight]
    exact hin
  by_cases hmore : weight w xs + u ≤ limit
  · have hlength : xs.length + 1 ≤ limit / u := by
      rw [Nat.le_div_iff_mul_le hu, Nat.mul_comm, Nat.mul_add_one, ← hweight]
      exact hmore
    rw [shed_of_nonpos (by omega), List.take_of_length_le (by omega)]
  · have hlength : limit / u = xs.length := by
      refine Nat.le_antisymm (Nat.lt_succ_iff.mp ?_) hroom
      rw [Nat.div_lt_iff_lt_mul hu, Nat.mul_comm, Nat.mul_succ, ← hweight]
      omega
    rcases List.eq_nil_or_concat xs with rfl | ⟨front, last, rfl⟩
    · rw [weight_nil] at hmore
      omega
    · rw [List.concat_eq_append] at *
      have hlast : w last = u := h last (by simp)
      rw [shed_concat, if_neg (by omega), shed_of_nonpos (by omega), hlength, List.length_append,
        List.length_singleton, Nat.add_sub_cancel, List.take_left]

theorem shed_map {γ : Type} (f : γ → α) (xs : List γ) :
    shed w excess (xs.map f) = (shed (w ∘ f) excess xs).map (List.map f) := by
  induction xs with
  | nil => by_cases h : excess ≤ 0 <;> simp [shed, h]
  | cons x xs ih =>
    simp only [List.map_cons, shed, ih, weight_cons, weight_map]
    cases shed (w ∘ f) excess xs with
    | some kept => rfl
    | none => simp [apply_ite]

end

end TailShed
