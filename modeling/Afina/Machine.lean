import Mathlib.Algebra.Order.Ring.Int
import Mathlib.Data.List.Basic

namespace Afina

/-- A `std::string`: any bytes, any length. -/
abbrev Bytes := List UInt8

/-- The bytes of a string literal of the source. -/
def text (s : String) : Bytes := s.toList.map (fun c => UInt8.ofNat c.toNat)

/-- Conversion of an `int` to `size_t`, as in a mixed comparison. -/
def sizeT (x : Int32) : Nat := (x.toInt % 2 ^ 64).toNat

/-- Conversion to `int` of a `size_t` value, or of a difference of two: both
moduli are powers of two, so the low 32 bits decide. -/
def narrow (n : Int) : Int32 := Int32.ofInt n

theorem sizeT_of_nonneg {x : Int32} (h : 0 ≤ x.toInt) : (sizeT x : Int) = x.toInt := by
  have hlt := Int32.toInt_lt x
  unfold sizeT
  omega

theorem toInt_narrow {n : Int} (lo : -2 ^ 31 ≤ n) (hi : n < 2 ^ 31) : (narrow n).toInt = n :=
  Int32.toInt_ofInt_of_le lo hi

theorem toInt_narrow_wrap {n : Int} (lo : 2 ^ 31 ≤ n) (hi : n < 2 ^ 32 + 2 ^ 31) :
    (narrow n).toInt = n - 2 ^ 32 := by
  have hsub : narrow n = narrow (n - 2 ^ 32) := by
    rw [narrow, narrow, ← Int32.toInt_inj, Int32.toInt_ofInt, Int32.toInt_ofInt]
    exact (Int.sub_bmod_right n Int32.size).symm
  rw [hsub]
  exact toInt_narrow (by omega) (by omega)

theorem narrow_add (m n : Int) : narrow (m + n) = narrow m + narrow n := Int32.ofInt_add m n

theorem narrow_sub (m n : Int) : narrow (m - n) = narrow m - narrow n := Int32.ofInt_sub m n

theorem narrow_toInt (x : Int32) : narrow x.toInt = x := Int32.ofInt_toInt x

@[simp] theorem narrow_zero : narrow 0 = 0 := rfl

theorem toInt_add_exact {x y : Int32} (lo : -2 ^ 31 ≤ x.toInt + y.toInt)
    (hi : x.toInt + y.toInt < 2 ^ 31) : (x + y).toInt = x.toInt + y.toInt := by
  rw [Int32.toInt_add, Int.bmod_eq_of_le] <;> omega

theorem toInt_sub_exact {x y : Int32} (lo : -2 ^ 31 ≤ x.toInt - y.toInt)
    (hi : x.toInt - y.toInt < 2 ^ 31) : (x - y).toInt = x.toInt - y.toInt := by
  rw [Int32.toInt_sub, Int.bmod_eq_of_le] <;> omega

theorem ofNat_min {a b : Nat} (ha : a < 2 ^ 32) (hb : b < 2 ^ 32) :
    min (UInt32.ofNat a) (UInt32.ofNat b) = UInt32.ofNat (min a b) := by
  have hmin : min (UInt32.ofNat a) (UInt32.ofNat b) =
      if UInt32.ofNat a ≤ UInt32.ofNat b then UInt32.ofNat a else UInt32.ofNat b := rfl
  simp only [hmin, UInt32.le_iff_toNat_le, UInt32.toNat_ofNat_of_lt' ha,
    UInt32.toNat_ofNat_of_lt' hb, Nat.min_def]
  split <;> rfl

end Afina
