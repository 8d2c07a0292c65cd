import Mathlib.Data.List.FinRange
import Mathlib.Data.List.Induction
import Mathlib.Data.List.Perm.Subperm

namespace Afina

/-- Whose suffixes are in the value under the key, oldest first, and in the
value each client has read. It depends on the schedule alone. -/
structure Trail (n : Nat) where
  written : List (Fin n)
  read : Fin n → Option (List (Fin n))

namespace Trail

variable {n : Nat}

/-- A client's first turn is its `Get`, its second its `Put`. -/
def step (t : Trail n) (i : Fin n) : Trail n :=
  match t.read i with
  | none => { t with read := Function.update t.read i (some t.written) }
  | some seen => { t with written := seen ++ [i] }

/-- The trail of a schedule: at its end `written` is the last writer, before it
the writer of what that one had read, and so on. -/
def of (schedule : List (Fin n)) : Trail n := schedule.foldl step ⟨[], fun _ => none⟩

theorem of_snoc (schedule : List (Fin n)) (i : Fin n) : of (schedule ++ [i]) = (of schedule).step i := by
  simp [of]

theorem read_of_not_mem {schedule : List (Fin n)} {i : Fin n} (h : i ∉ schedule) :
    (of schedule).read i = none := by
  induction schedule using List.reverseRecOn with
  | nil => rfl
  | append_singleton schedule j ih =>
    rw [List.mem_append, List.mem_singleton, not_or] at h
    rw [of_snoc, step]
    split
    next => exact (Function.update_of_ne h.2 _ _).trans (ih h.1)
    next => exact ih h.1

/-- The clients one after the other. -/
def serial (order : List (Fin n)) : List (Fin n) := order.flatMap fun i => [i, i]

theorem serial_snoc (order : List (Fin n)) (i : Fin n) :
    serial (order ++ [i]) = serial order ++ [i] ++ [i] := by
  simp [serial]

theorem of_serial {order : List (Fin n)} (h : order.Nodup) : (of (serial order)).written = order := by
  induction order using List.reverseRecOn with
  | nil => rfl
  | append_singleton order i ih =>
    have hnew : i ∉ order := fun hi => (List.nodup_append.mp h).2.2 i hi i (by simp) rfl
    have hread : (of (serial order)).read i = none := read_of_not_mem (by simpa [serial] using hnew)
    have hih := ih (List.nodup_append.mp h).1
    rw [serial_snoc, of_snoc, of_snoc]
    simp [step, hread, hih]

/-- A trail is at most half as long as its schedule, and only a serial schedule
has one that is half as long. -/
theorem written_length (schedule : List (Fin n)) :
    (2 * (of schedule).written.length ≤ schedule.length ∧
      (2 * (of schedule).written.length = schedule.length →
        schedule = serial (of schedule).written)) ∧
      ∀ i seen, (of schedule).read i = some seen → 2 * seen.length + 1 ≤ schedule.length ∧
        (2 * seen.length + 1 = schedule.length → schedule = serial seen ++ [i]) := by
  induction schedule using List.reverseRecOn with
  | nil => exact ⟨⟨Nat.le_refl 0, fun _ => rfl⟩, fun i seen h => by simp [of] at h⟩
  | append_singleton schedule i ih =>
    obtain ⟨⟨hle, heq⟩, hread⟩ := ih
    rw [of_snoc, List.length_append, List.length_singleton]
    cases hi : (of schedule).read i with
    | none =>
      simp only [step, hi]
      refine ⟨⟨by omega, fun h => by omega⟩, fun j seen hj => ?_⟩
      by_cases he : j = i
      · subst he
        rw [Function.update_self] at hj
        cases Option.some.inj hj
        exact ⟨by omega, fun h => by rw [← heq (by omega)]⟩
      · rw [Function.update_of_ne he] at hj
        have := (hread j seen hj).1
        exact ⟨by omega, fun h => by omega⟩
    | some seen =>
      have hseen := hread i seen hi
      simp only [step, hi, List.length_append, List.length_singleton]
      refine ⟨⟨by omega, fun h => ?_⟩, fun j seen' hj => ?_⟩
      · rw [serial_snoc, ← hseen.2 (by omega)]
      · have := (hread j seen' hj).1
        exact ⟨by omega, fun h => by omega⟩

/-- When every client has its two turns, all are on the trail exactly if they
take them one after the other. -/
theorem all_written_iff {schedule : List (Fin n)} (twice : ∀ i, schedule.count i = 2) :
    (∀ i, i ∈ (of schedule).written) ↔
      ∃ order : List (Fin n), order.Perm (List.finRange n) ∧ schedule = serial order := by
  have hcount : ∀ (order : List (Fin n)) i, (serial order).count i = 2 * order.count i := by
    intro order i
    induction order with
    | nil => rfl
    | cons j order ih =>
      rw [List.count_cons]
      simp only [serial, List.flatMap_cons, List.count_append] at ih ⊢
      rw [ih]
      by_cases hj : j = i
      · rw [hj, List.count_cons_self, List.count_cons_self, List.count_nil, beq_self_eq_true,
          if_pos rfl]
        omega
      · have hne : (j == i) = false := beq_false_of_ne hj
        rw [List.count_cons_of_ne hj, List.count_cons_of_ne hj, List.count_nil, hne]
        simp
  have hone : ∀ i, (List.finRange n).count i = 1 := fun i =>
    List.count_eq_one_of_mem (List.nodup_finRange n) (List.mem_finRange i)
  have hlength : schedule.length = 2 * n := by
    have hperm : schedule.Perm (serial (List.finRange n)) :=
      List.perm_iff_count.mpr fun i => by rw [twice, hcount, hone]
    have hserial : (serial (List.finRange n)).length = n * 2 := by simp [serial]
    rw [hperm.length_eq, hserial, Nat.mul_comm]
  constructor
  · intro hall
    have hn : n ≤ (of schedule).written.length := by
      have := (List.subperm_of_subset (List.nodup_finRange n) fun i _ => hall i).length_le
      simpa using this
    obtain ⟨hle, heq⟩ := (written_length schedule).1
    have hserial := heq (by omega)
    refine ⟨_, List.perm_iff_count.mpr fun i => ?_, hserial⟩
    have := twice i
    rw [hserial, hcount] at this
    rw [hone]
    omega
  · rintro ⟨order, hperm, rfl⟩ i
    rw [of_serial (hperm.nodup_iff.mpr (List.nodup_finRange n))]
    exact hperm.mem_iff.mpr (List.mem_finRange i)

end Trail

end Afina
