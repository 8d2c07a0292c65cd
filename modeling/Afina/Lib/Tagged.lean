import Mathlib.Data.List.Basic

namespace Tagged

section

variable {ι α β : Type} [DecidableEq ι]

/-- What a list of tagged values has under one tag, in its order. -/
def part (l : List (ι × α)) (i : ι) : List α := l.filterMap fun e => if e.1 = i then some e.2 else none

@[simp] theorem part_nil (i : ι) : part ([] : List (ι × α)) i = [] := rfl

@[simp] theorem part_append (l l' : List (ι × α)) (i : ι) :
    part (l ++ l') i = part l i ++ part l' i :=
  List.filterMap_append

@[simp] theorem part_cons_self (i : ι) (a : α) (l : List (ι × α)) :
    part ((i, a) :: l) i = a :: part l i := by
  simp [part]

theorem part_cons_of_ne {i j : ι} (h : j ≠ i) (a : α) (l : List (ι × α)) :
    part ((j, a) :: l) i = part l i := by
  simp [part, h]

@[simp] theorem part_tagged_self (i : ι) (l : List β) (f : β → α) :
    part (l.map fun b => (i, f b)) i = l.map f := by
  induction l with
  | nil => rfl
  | cons b l ih => rw [List.map_cons, part_cons_self, ih, List.map_cons]

theorem part_tagged_of_ne {i j : ι} (h : j ≠ i) (l : List β) (f : β → α) :
    part (l.map fun b => (j, f b)) i = [] := by
  induction l with
  | nil => rfl
  | cons b l ih => rw [List.map_cons, part_cons_of_ne h, ih]

end

end Tagged
