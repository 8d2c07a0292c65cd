import Mathlib.Algebra.Order.Ring.Int
import Mathlib.Data.List.Induction

namespace Decimal

/-- A number as its decimal digits in ASCII. -/
def render (n : Nat) : List UInt8 := (Nat.toDigits 10 n).map (fun c => UInt8.ofNat c.toNat)

def renderInt (n : Int) : List UInt8 := if n < 0 then 45 :: render n.natAbs else render n.natAbs

def isDigit (c : UInt8) : Bool := 48 ≤ c && c ≤ 57

def digit (c : UInt8) : Nat := c.toNat - 48

def value (xs : List UInt8) : Nat := xs.foldl (fun n c => 10 * n + digit c) 0

def digitSum (xs : List UInt8) : Nat := (xs.map digit).sum

theorem value_snoc (xs : List UInt8) (c : UInt8) : value (xs ++ [c]) = 10 * value xs + digit c := by
  simp [value]

theorem digitSum_cons (d : UInt8) (ds : List UInt8) : digitSum (d :: ds) = digit d + digitSum ds :=
  rfl

theorem digitSum_snoc (xs : List UInt8) (c : UInt8) :
    digitSum (xs ++ [c]) = digitSum xs + digit c := by
  simp [digitSum]

theorem value_le_append (xs ys : List UInt8) : value xs ≤ value (xs ++ ys) := by
  induction ys using List.reverseRecOn with
  | nil => simp
  | append_singleton ys c ih =>
    rw [← List.append_assoc, value_snoc]
    omega

theorem value_mono {xs ys : List UInt8} (h : xs <+: ys) : value xs ≤ value ys := by
  obtain ⟨rest, rfl⟩ := h
  exact value_le_append xs rest

theorem digitSum_le_value (xs : List UInt8) : digitSum xs ≤ value xs := by
  induction xs using List.reverseRecOn with
  | nil => simp [digitSum]
  | append_singleton xs c ih =>
    rw [digitSum_snoc, value_snoc]
    omega

theorem toNat_of_isDigit {c : Char} (h : c.isDigit = true) : 48 ≤ c.toNat ∧ c.toNat ≤ 57 := by
  simp only [Char.isDigit, Bool.and_eq_true, decide_eq_true_eq, ge_iff_le, UInt32.le_iff_toNat_le] at h
  exact h

theorem isDigit_of_mem_render {n : Nat} {c : UInt8} (h : c ∈ render n) : isDigit c = true := by
  obtain ⟨d, hd, rfl⟩ := List.mem_map.mp h
  have hrange := toNat_of_isDigit (Nat.isDigit_of_mem_toDigits (by decide) (by decide) hd)
  simp only [isDigit, Bool.and_eq_true, decide_eq_true_eq, UInt8.le_iff_toNat_le, UInt8.toNat_ofNat',
    UInt8.reduceToNat]
  omega

theorem render_ne_nil (n : Nat) : render n ≠ [] := by
  simp [render, Nat.toDigits_ne_nil]

theorem value_render (n : Nat) : value (render n) = n := by
  rw [value, render, List.foldl_map]
  have hfold : ∀ (cs : List Char) (a : Nat), (∀ c ∈ cs, c.isDigit = true) →
      cs.foldl (fun n c => 10 * n + digit (UInt8.ofNat c.toNat)) a = Nat.ofDigitChars 10 cs a := by
    intro cs a hcs
    induction cs generalizing a with
    | nil => simp
    | cons c cs ih =>
      have hrange := toNat_of_isDigit (hcs c List.mem_cons_self)
      have hdigit : digit (UInt8.ofNat c.toNat) = c.toNat - '0'.toNat := by
        simp only [digit, UInt8.toNat_ofNat', Char.reduceToNat]
        omega
      rw [List.foldl_cons, hdigit, ih _ fun d hd => hcs d (List.mem_cons_of_mem c hd),
        Nat.ofDigitChars_cons]
  rw [hfold _ _ fun c hc => Nat.isDigit_of_mem_toDigits (by decide) (by decide) hc]
  exact Nat.ofDigitChars_ten_toDigits

theorem render_of_ten_le {n : Nat} (h : 10 ≤ n) : ∃ c, render n = render (n / 10) ++ [c] := by
  refine ⟨UInt8.ofNat (n % 10).digitChar.toNat, ?_⟩
  rw [render, Nat.toDigits_of_base_le (by decide) h, List.map_append]
  rfl

/-- Only a number of one digit is the sum of its digits. -/
theorem digitSum_render_eq_iff (n : Nat) : digitSum (render n) = n ↔ n ≤ 9 := by
  constructor
  · intro h
    by_contra hlarge
    obtain ⟨c, hc⟩ := render_of_ten_le (n := n) (by omega)
    have hvalue := value_render n
    have hle := digitSum_le_value (render (n / 10))
    rw [hc, value_snoc, value_render] at hvalue
    rw [hc, digitSum_snoc] at h
    rw [value_render] at hle
    omega
  · intro h
    have hsmall : ∀ m < 10, digitSum (render m) = m := by decide
    exact hsmall n (by omega)

end Decimal
