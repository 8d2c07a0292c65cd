import Afina.ParserHeaders

namespace Afina

open Scan Decimal

def IsNumber (ds : Bytes) : Prop := ds ≠ [] ∧ ∀ c ∈ ds, isDigit c = true

/-- `<flags> [-]<exptime> <bytes>\r\n`, the text after the key and its space. -/
def NumbersText (t : Bytes) : Prop :=
  ∃ f s e b, IsNumber f ∧ (s = [] ∨ s = [minus]) ∧ IsNumber e ∧ IsNumber b ∧
    t = f ++ [space] ++ s ++ e ++ [space] ++ b ++ [cr] ++ [lf]

/-- A text that no more input can make well-formed. -/
def Malformed (u : Bytes) : Prop :=
  (¬ ∃ w, NumbersText (u ++ w)) ∧ ∀ t, t <+: u → ¬ NumbersText t

/-- How much of the numbers has been read: which field, and whether it has a
digit yet. -/
inductive Field
  | flags (digit : Bool)
  | start
  | time (digit : Bool)
  | bytes (digit : Bool)
  | line
  | done
deriving DecidableEq, Repr

namespace Field

/-- A reader that takes nothing else than the numbers. -/
def next : Field → UInt8 → Option Field
  | .flags any, c =>
    if isDigit c then some (.flags true) else if c = space ∧ any then some .start else none
  | .start, c =>
    if isDigit c then some (.time true) else if c = minus then some (.time false) else none
  | .time any, c =>
    if isDigit c then some (.time true) else if c = space ∧ any then some (.bytes false) else none
  | .bytes any, c =>
    if isDigit c then some (.bytes true) else if c = cr ∧ any then some .line else none
  | .line, c => if c = lf then some .done else none
  | .done, _ => none

def run (s : Field) (u : Bytes) : Option Field := u.foldlM next s

theorem run_append (s : Field) (u w : Bytes) : s.run (u ++ w) = (s.run u).bind (·.run w) :=
  List.foldlM_append

theorem run_snoc (s : Field) (u : Bytes) (c : UInt8) :
    s.run (u ++ [c]) = (s.run u).bind (·.next c) := by
  rw [run_append]
  congr 1
  funext t
  simp [run]

/-- What has been read at each point. -/
def Text : Field → Bytes → Prop
  | .flags any, u => (∀ c ∈ u, isDigit c = true) ∧ (any = true ↔ u ≠ [])
  | .start, u => ∃ f, IsNumber f ∧ u = f ++ [space]
  | .time any, u => ∃ f s e, IsNumber f ∧ (s = [] ∨ s = [minus]) ∧ (∀ c ∈ e, isDigit c = true) ∧
      (any = true ↔ e ≠ []) ∧ u = f ++ [space] ++ s ++ e
  | .bytes any, u => ∃ f s e b, IsNumber f ∧ (s = [] ∨ s = [minus]) ∧ IsNumber e ∧
      (∀ c ∈ b, isDigit c = true) ∧ (any = true ↔ b ≠ []) ∧
      u = f ++ [space] ++ s ++ e ++ [space] ++ b
  | .line, u => ∃ f s e b, IsNumber f ∧ (s = [] ∨ s = [minus]) ∧ IsNumber e ∧ IsNumber b ∧
      u = f ++ [space] ++ s ++ e ++ [space] ++ b ++ [cr]
  | .done, u => NumbersText u

theorem digits_snoc {ds : Bytes} {c : UInt8} (h : ∀ d ∈ ds, isDigit d = true)
    (hc : isDigit c = true) : ∀ d ∈ ds ++ [c], isDigit d = true := by
  intro d hd
  rcases List.mem_append.mp hd with hd | hd
  · exact h d hd
  · rw [List.mem_singleton.mp hd]
    exact hc

theorem Text.next {s t : Field} {u : Bytes} {c : UInt8} (h : s.Text u) (hn : s.next c = some t) :
    t.Text (u ++ [c]) := by
  cases s with
  | flags any =>
    obtain ⟨hdigits, hany⟩ := h
    dsimp only [Field.next] at hn
    split at hn
    next hc => cases hn; exact ⟨digits_snoc hdigits hc, by simp⟩
    next =>
      split at hn
      next hsep =>
        cases hn
        obtain ⟨rfl, htrue⟩ := hsep
        exact ⟨u, ⟨hany.mp htrue, hdigits⟩, rfl⟩
      next => cases hn
  | start =>
    obtain ⟨f, hf, rfl⟩ := h
    dsimp only [Field.next] at hn
    split at hn
    next hc =>
      cases hn
      exact ⟨f, [], [c], hf, Or.inl rfl, by simpa using hc, by simp, by simp⟩
    next =>
      split at hn
      next hsign =>
        cases hn
        exact ⟨f, [minus], [], hf, Or.inr rfl, by simp, by simp, by simp [hsign]⟩
      next => cases hn
  | time any =>
    obtain ⟨f, s, e, hf, hs, hdigits, hany, rfl⟩ := h
    dsimp only [Field.next] at hn
    split at hn
    next hc =>
      cases hn
      exact ⟨f, s, e ++ [c], hf, hs, digits_snoc hdigits hc, by simp, by simp⟩
    next =>
      split at hn
      next hsep =>
        cases hn
        obtain ⟨rfl, htrue⟩ := hsep
        exact ⟨f, s, e, [], hf, hs, ⟨hany.mp htrue, hdigits⟩, by simp, by simp, by simp⟩
      next => cases hn
  | bytes any =>
    obtain ⟨f, s, e, b, hf, hs, he, hdigits, hany, rfl⟩ := h
    dsimp only [Field.next] at hn
    split at hn
    next hc =>
      cases hn
      exact ⟨f, s, e, b ++ [c], hf, hs, he, digits_snoc hdigits hc, by simp, by simp⟩
    next =>
      split at hn
      next hsep =>
        cases hn
        obtain ⟨rfl, htrue⟩ := hsep
        exact ⟨f, s, e, b, hf, hs, he, ⟨hany.mp htrue, hdigits⟩, rfl⟩
      next => cases hn
  | line =>
    obtain ⟨f, s, e, b, hf, hs, he, hb, rfl⟩ := h
    dsimp only [Field.next] at hn
    split at hn
    next hlf => cases hn; exact ⟨f, s, e, b, hf, hs, he, hb, by rw [hlf]⟩
    next => cases hn
  | done => cases hn

theorem text_of_run {u : Bytes} {s : Field} (h : (flags false).run u = some s) : s.Text u := by
  induction u using List.reverseRecOn generalizing s with
  | nil =>
    cases h
    exact ⟨by simp, by simp⟩
  | append_singleton u c ih =>
    rw [run_snoc] at h
    obtain ⟨t, ht, hn⟩ := Option.bind_eq_some_iff.mp h
    exact (ih ht).next hn

theorem run_number {s t : Field} {ds : Bytes} (h : IsNumber ds)
    (hs : ∀ c, isDigit c = true → s.next c = some t)
    (ht : ∀ c, isDigit c = true → t.next c = some t) : s.run ds = some t := by
  obtain ⟨hne, hdigits⟩ := h
  obtain ⟨d, ds, rfl⟩ := List.exists_cons_of_ne_nil hne
  have hrest : ∀ ds : Bytes, (∀ c ∈ ds, isDigit c = true) → t.run ds = some t := by
    intro ds hds
    induction ds using List.reverseRecOn with
    | nil => rfl
    | append_singleton ds c ih =>
      rw [run_snoc, ih fun d hd => hds d (List.mem_append_left _ hd)]
      exact ht c (hds c (by simp))
  have hfirst : s.run [d] = some t := by
    simpa [run] using hs d (hdigits d List.mem_cons_self)
  rw [← List.singleton_append, run_append, hfirst]
  exact hrest ds fun c hc => hdigits c (List.mem_cons_of_mem d hc)

theorem run_flags {f : Bytes} (h : IsNumber f) : (flags false).run (f ++ [space]) = some start := by
  rw [run_snoc, run_number (t := flags true) h (fun c hc => by simp [next, hc])
    (fun c hc => by simp [next, hc])]
  rfl

theorem run_time {s e : Bytes} (hs : s = [] ∨ s = [minus]) (h : IsNumber e) :
    start.run (s ++ e ++ [space]) = some (bytes false) := by
  have hdigits : start.run (s ++ e) = some (time true) := by
    rcases hs with rfl | rfl
    · exact run_number h (fun c hc => by simp [next, hc]) (fun c hc => by simp [next, hc])
    · rw [run_append]
      exact run_number (s := time false) h (fun c hc => by simp [next, hc])
        (fun c hc => by simp [next, hc])
  rw [run_snoc, hdigits]
  rfl

theorem run_bytes {b : Bytes} (h : IsNumber b) :
    (bytes false).run (b ++ [cr] ++ [lf]) = some done := by
  rw [run_snoc, run_snoc, run_number (t := bytes true) h (fun c hc => by simp [next, hc])
    (fun c hc => by simp [next, hc])]
  rfl

theorem run_done_iff (t : Bytes) : (flags false).run t = some done ↔ NumbersText t := by
  constructor
  · exact text_of_run
  · rintro ⟨f, s, e, b, hf, hs, he, hb, rfl⟩
    have hsplit : f ++ [space] ++ s ++ e ++ [space] ++ b ++ [cr] ++ [lf] =
        (f ++ [space]) ++ ((s ++ e ++ [space]) ++ (b ++ [cr] ++ [lf])) := by simp
    rw [hsplit, run_append, run_flags hf, Option.bind_some, run_append, run_time hs he,
      Option.bind_some, run_bytes hb]

theorem exists_completion (s : Field) (hs : s ≠ done) : ∃ w, s.run w = some done := by
  cases s with
  | flags any => exact ⟨text "0 0 0\r\n", by cases any <;> decide⟩
  | start => exact ⟨text "0 0\r\n", by decide⟩
  | time any => exact ⟨text "0 0\r\n", by cases any <;> decide⟩
  | bytes any => exact ⟨text "0\r\n", by cases any <;> decide⟩
  | line => exact ⟨[lf], by decide⟩
  | done => exact absurd rfl hs

theorem run_done {w : Bytes} {s : Field} (h : done.run w = some s) : w = [] ∧ s = done := by
  cases w with
  | nil =>
    cases h
    exact ⟨rfl, rfl⟩
  | cons c w => cases h

/-- The reader refuses a text as soon as it is malformed, and not before. -/
theorem malformed_iff (u : Bytes) :
    Malformed u ↔ (flags false).run u = none ∧ ∀ t, t <+: u → (flags false).run t ≠ some done := by
  constructor
  · rintro ⟨hdead, hfront⟩
    refine ⟨?_, fun t ht hrun => hfront t ht ((run_done_iff t).mp hrun)⟩
    cases hrun : (flags false).run u with
    | none => rfl
    | some s =>
      have hs : s ≠ done := fun hdone =>
        hfront u (List.prefix_refl u) ((run_done_iff u).mp (hdone ▸ hrun))
      obtain ⟨w, hw⟩ := exists_completion s hs
      exact absurd ⟨w, (run_done_iff _).mp (by rw [run_append, hrun]; exact hw)⟩ hdead
  · rintro ⟨hrun, hfront⟩
    refine ⟨?_, fun t ht hform => hfront t ht ((run_done_iff t).mpr hform)⟩
    rintro ⟨w, hw⟩
    have hdone := (run_done_iff _).mpr hw
    rw [run_append, hrun] at hdone
    cases hdone

theorem malformed_of_next {u : Bytes} {s : Field} {c : UInt8} (hrun : (flags false).run u = some s)
    (hs : s ≠ done) (hnext : s.next c = none) : Malformed (u ++ [c]) := by
  have hnone : (flags false).run (u ++ [c]) = none := by
    rw [run_snoc, hrun]
    exact hnext
  refine (malformed_iff _).mpr ⟨hnone, fun t ht hdone => ?_⟩
  rcases List.prefix_concat_iff.mp ht with rfl | ⟨w, rfl⟩
  · simp [hnone] at hdone
  · rw [run_append, hdone, Option.bind_some] at hrun
    exact hs (run_done hrun).2

end Field

end Afina
