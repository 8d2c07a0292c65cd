import Mathlib.Data.List.Basic

namespace Framing

variable {α β : Type}

/-- A field that ends at the first separator. -/
theorem field_unique {sep : β} {xs ys rest rest' : List β} (hx : sep ∉ xs) (hy : sep ∉ ys)
    (h : xs ++ sep :: rest = ys ++ sep :: rest') : xs = ys ∧ rest = rest' := by
  induction xs generalizing ys with
  | nil =>
    cases ys with
    | nil =>
      cases h
      exact ⟨rfl, rfl⟩
    | cons y ys =>
      cases h
      exact absurd List.mem_cons_self hy
  | cons x xs ih =>
    cases ys with
    | nil =>
      cases h
      exact absurd List.mem_cons_self hx
    | cons y ys =>
      obtain ⟨rfl, htail⟩ := List.cons.inj h
      obtain ⟨rfl, hrest⟩ := ih (fun hm => hx (List.mem_cons_of_mem x hm))
        (fun hm => hy (List.mem_cons_of_mem x hm)) htail
      exact ⟨rfl, hrest⟩

/-- No encoding can be read in two ways at the head of an input. -/
def PrefixUnique (ok : α → Prop) (encode : α → List β) : Prop :=
  ∀ a b rest rest', ok a → ok b → encode a ++ rest = encode b ++ rest' → a = b ∧ rest = rest'

/-- A sequence of encodings up to a stop that begins none of them. -/
theorem PrefixUnique.sequence {ok : α → Prop} {encode : α → List β} {stop : List β}
    (h : PrefixUnique ok encode) (hstop : ∀ a rest, ok a → encode a ++ rest ≠ stop)
    {xs ys : List α} (hx : ∀ x ∈ xs, ok x) (hy : ∀ y ∈ ys, ok y)
    (heq : xs.flatMap encode ++ stop = ys.flatMap encode ++ stop) : xs = ys := by
  induction xs generalizing ys with
  | nil =>
    cases ys with
    | nil => rfl
    | cons y ys =>
      rw [List.flatMap_cons, List.append_assoc] at heq
      exact absurd heq.symm (hstop y _ (hy y List.mem_cons_self))
  | cons x xs ih =>
    have hxok := hx x List.mem_cons_self
    rw [List.flatMap_cons, List.append_assoc] at heq
    cases ys with
    | nil => exact absurd heq (hstop x _ hxok)
    | cons y ys =>
      rw [List.flatMap_cons, List.append_assoc] at heq
      obtain ⟨rfl, hrest⟩ := h x y _ _ hxok (hy y List.mem_cons_self) heq
      rw [ih (fun z hz => hx z (List.mem_cons_of_mem x hz))
        (fun z hz => hy z (List.mem_cons_of_mem x hz)) hrest]

end Framing
