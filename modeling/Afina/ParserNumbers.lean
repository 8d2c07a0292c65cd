import Afina.ParserFields
import Afina.ParserNames

namespace Afina

open Scan Decimal

/-- One more digit, in 32 bits. -/
def pushDigit (n : UInt32) (c : UInt8) : UInt32 := n * 10 + UInt32.ofNat (digit c)

theorem toNat_pushDigit (n : UInt32) (c : UInt8) :
    (pushDigit n c).toNat = (10 * n.toNat + digit c) % 2 ^ 32 := by
  simp only [pushDigit, UInt32.toNat_add, UInt32.toNat_mul, UInt32.toNat_ofNat', UInt32.reduceToNat]
  omega

theorem toNat_foldl_pushDigit (ds : Bytes) (n : UInt32) :
    (ds.foldl pushDigit n).toNat = ds.foldl (fun n c => 10 * n + digit c) n.toNat % 2 ^ 32 := by
  induction ds using List.reverseRecOn with
  | nil => exact (Nat.mod_eq_of_lt (UInt32.toNat_lt n)).symm
  | append_singleton ds c ih =>
    rw [List.foldl_append, List.foldl_append, List.foldl_cons, List.foldl_nil, List.foldl_cons,
      List.foldl_nil, toNat_pushDigit, ih]
    omega

namespace Parser

/-- The text of a field: what `Parse` reads in this state, without the character
that ends it. -/
def fieldText (field : ParserState) (p : Parser) (input : Bytes) : Bytes :=
  word parseComplete step (fun q => decide (q.state = field)) p input

/-- A number field of the header: each digit is put behind the number, unless the
result is below it, and nothing else changes the number. -/
structure NumberField (field : ParserState) (get : Parser → UInt32) (overflow : ParseError) :
    Prop where
  caught : ∀ p c, p.state = field → isDigit c = true → pushDigit (get p) c < get p →
    p.step c = .error overflow
  pushed : ∀ p c, p.state = field → isDigit c = true → ¬ pushDigit (get p) c < get p →
    ∃ q, p.step c = .ok q ∧ q.state = field ∧ q.parseComplete = p.parseComplete ∧
      get q = pushDigit (get p) c
  kept : ∀ p c q, p.step c = .ok q → ¬ (p.state = field ∧ q.state = field) → get q = get p

/-- A number changes in its own state only. -/
theorem step_numbers {p q : Parser} {c : UInt8} (hq : p.step c = .ok q) :
    (p.state ≠ .spFlags → q.flags = p.flags) ∧ (p.state ≠ .spBytes → q.bytes = p.bytes) := by
  cases hs : p.state <;> simp only [step, hs] at hq
  case sCR => cases hq
  all_goals
    simp only [stepName, stepPutKey, stepGetKey, stepFlags, stepExprTimeStart, stepExprTime,
      stepBytes, stepLF] at hq
    repeat' split at hq
    all_goals
      cases hq
      try exact ⟨fun _ => rfl, fun _ => rfl⟩
  · exact ⟨fun h => absurd rfl h, fun _ => rfl⟩
  · exact ⟨fun _ => rfl, fun h => absurd rfl h⟩

theorem numberField_flags : NumberField .spFlags flags .flagsOverflow where
  caught p c hs hd hlt := by
    simp only [step, hs, stepFlags, if_neg (ne_space_of_digit hd).1, hd, if_true]
    exact if_pos hlt
  pushed p c hs hd hlt := by
    refine ⟨{ p with flags := pushDigit p.flags c }, ?_, hs, rfl, rfl⟩
    simp only [step, hs, stepFlags, if_neg (ne_space_of_digit hd).1, hd, if_true]
    exact if_neg hlt
  kept p c q hq hout := by
    by_cases hs : p.state = .spFlags
    · simp only [step, hs, stepFlags] at hq
      repeat' split at hq
      all_goals
        cases hq
        try rfl
      exact absurd ⟨hs, rfl⟩ hout
    · exact (step_numbers hq).1 hs

theorem numberField_bytes : NumberField .spBytes bytes .bytesOverflow where
  caught p c hs hd hlt := by
    simp only [step, hs, stepBytes, if_neg (ne_space_of_digit hd).2.1, hd, if_true]
    exact if_pos hlt
  pushed p c hs hd hlt := by
    refine ⟨{ p with bytes := pushDigit p.bytes c }, ?_, hs, rfl, rfl⟩
    simp only [step, hs, stepBytes, if_neg (ne_space_of_digit hd).2.1, hd, if_true]
    exact if_neg hlt
  kept p c q hq hout := by
    by_cases hs : p.state = .spBytes
    · simp only [step, hs, stepBytes] at hq
      repeat' split at hq
      all_goals
        cases hq
        try rfl
      exact absurd ⟨hs, rfl⟩ hout
    · exact (step_numbers hq).2 hs

/-- The number that a returning `Parse` leaves is the value of the field's text
in 32 bits. -/
theorem NumberField.toNat {field : ParserState} {get : Parser → UInt32} {overflow : ParseError}
    (h : NumberField field get overflow) {p q : Parser} {input : Bytes} {n : Nat}
    (hz : get p = 0) (hq : p.parse input = .returned q n)
    (hd : ∀ c ∈ p.fieldText field input, isDigit c = true) :
    (get q).toNat = value (p.fieldText field input) % 2 ^ 32 := by
  have hinside : ∀ s c t, step s c = .ok t → decide (s.state = field) = true →
      decide (t.state = field) = true → isDigit c = true → get t = pushDigit (get s) c := by
    intro s c t hstep hs _ hdigit
    by_cases hlt : pushDigit (get s) c < get s
    · rw [h.caught s c (of_decide_eq_true hs) hdigit hlt] at hstep
      cases hstep
    · obtain ⟨u, hu, _, _, hget⟩ := h.pushed s c (of_decide_eq_true hs) hdigit hlt
      cases hstep.symm.trans hu
      exact hget
  have hfold : get q = (p.fieldText field input).foldl pushDigit (get p) := by
    refine get_of_returned hinside ?_ hq hd
    intro s c t hstep hout
    exact h.kept s c t hstep (by simpa using hout)
  rw [hfold, toNat_foldl_pushDigit, hz]
  rfl

/-- The test for overflow fires at a digit of the text: the number in 32 bits gets
smaller. -/
def OverflowSeen (ds : Bytes) : Prop :=
  ∃ pre c, pre ++ [c] <+: ds ∧ value (pre ++ [c]) % 2 ^ 32 < value pre % 2 ^ 32

/-- As `OverflowSeen`, behind digits that were read before. -/
def OverflowBehind (seen ds : Bytes) : Prop :=
  ∃ pre c, pre ++ [c] <+: ds ∧
    value (seen ++ pre ++ [c]) % 2 ^ 32 < value (seen ++ pre) % 2 ^ 32

theorem overflowBehind_nil (ds : Bytes) : OverflowBehind [] ds ↔ OverflowSeen ds := by
  simp only [OverflowBehind, OverflowSeen, List.nil_append]

theorem not_overflowBehind_nil (seen : Bytes) : ¬ OverflowBehind seen [] := by
  rintro ⟨pre, c, hpre, _⟩
  simp at hpre

theorem overflowBehind_cons (seen : Bytes) (d : UInt8) (ds : Bytes) :
    OverflowBehind seen (d :: ds) ↔
      value (seen ++ [d]) % 2 ^ 32 < value seen % 2 ^ 32 ∨ OverflowBehind (seen ++ [d]) ds := by
  constructor
  · rintro ⟨pre, c, hpre, hless⟩
    cases pre with
    | nil =>
      obtain rfl : c = d := by simpa using hpre
      exact Or.inl (by simpa using hless)
    | cons d' pre =>
      obtain ⟨rfl, htail⟩ := List.cons_prefix_cons.mp hpre
      exact Or.inr ⟨pre, c, htail, by simpa using hless⟩
  · rintro (hless | ⟨pre, c, hpre, hless⟩)
    · exact ⟨[], d, by simp, by simpa using hless⟩
    · exact ⟨d :: pre, c, by simpa using hpre, by simpa using hless⟩

theorem pushDigit_value {n : UInt32} {seen : Bytes} (h : n.toNat = value seen % 2 ^ 32)
    (c : UInt8) : (pushDigit n c).toNat = value (seen ++ [c]) % 2 ^ 32 := by
  rw [toNat_pushDigit, value_snoc, h]
  omega

theorem pushDigit_lt_iff {n : UInt32} {seen : Bytes} (h : n.toNat = value seen % 2 ^ 32)
    (c : UInt8) :
    pushDigit n c < n ↔ value (seen ++ [c]) % 2 ^ 32 < value seen % 2 ^ 32 := by
  rw [UInt32.lt_iff_toNat_lt, pushDigit_value h, h]

/-- `Parse` on the text of a field, behind digits that it has seen before: the
characters that are no digits are skipped, and the digits overflow, or they do not.
A property of the parser that the field leaves alone is kept. -/
theorem NumberField.text {field : ParserState} {get : Parser → UInt32} {overflow : ParseError}
    (h : NumberField field get overflow) {I : Parser → Prop}
    (hI : ∀ p c q, p.state = field → p.step c = .ok q → I p → I q) {p : Parser}
    {seen f : Bytes} (hs : p.state = field) (hc : p.parseComplete = false)
    (hn : (get p).toNat = value seen % 2 ^ 32) (hp : I p)
    (hskip : ∀ c ∈ f, isDigit c = false → ∀ q : Parser, q.state = field → q.step c = .ok q) :
    (OverflowBehind seen (f.filter isDigit) ∧ p.Throws f overflow) ∨
      (¬ OverflowBehind seen (f.filter isDigit) ∧
        ∃ q, p.Reads f q ∧ q.state = field ∧ q.parseComplete = false ∧ I q) := by
  induction f generalizing p seen with
  | nil => exact Or.inr ⟨not_overflowBehind_nil seen, p, .nil p, hs, hc, hp⟩
  | cons c f ih =>
    have hrest := fun d hd => hskip d (List.mem_cons_of_mem c hd)
    cases hd : isDigit c with
    | false =>
      have hstep := hskip c List.mem_cons_self hd p hs
      rw [List.filter_cons_of_neg (by simp [hd])]
      rcases ih hs hc hn hp hrest with ⟨hover, hthrows⟩ | ⟨hnone, q, hread, hq⟩
      · exact Or.inl ⟨hover, hthrows.cons hc hstep⟩
      · exact Or.inr ⟨hnone, q, (Eats.single hc hstep).trans hread, hq⟩
    | true =>
      rw [List.filter_cons_of_pos hd, overflowBehind_cons, ← pushDigit_lt_iff hn]
      by_cases hlt : pushDigit (get p) c < get p
      · exact Or.inl ⟨Or.inl hlt, .of_step hc (h.caught p c hs hd hlt) f⟩
      · obtain ⟨t, hstep, hstate, hcomplete, hget⟩ := h.pushed p c hs hd hlt
        have hvalue : (get t).toNat = value (seen ++ [c]) % 2 ^ 32 := by
          rw [hget]
          exact pushDigit_value hn c
        rw [or_iff_right hlt]
        rcases ih hstate (hcomplete.trans hc) hvalue (hI p c t hs hstep hp) hrest with
          ⟨hover, hthrows⟩ | ⟨hnone, q, hread, hq⟩
        · exact Or.inl ⟨hover, hthrows.cons hc hstep⟩
        · exact Or.inr ⟨hnone, q, (Eats.single hc hstep).trans hread, hq⟩

theorem NumberField.throws_iff {field : ParserState} {get : Parser → UInt32}
    {overflow : ParseError} (h : NumberField field get overflow) {p : Parser} {ds : Bytes}
    (hs : p.state = field) (hc : p.parseComplete = false) (hz : get p = 0)
    (hd : ∀ c ∈ ds, isDigit c = true) :
    (∃ q pos, p.parse ds = .threw q overflow pos) ↔ OverflowSeen ds := by
  have hn : (get p).toNat = value [] % 2 ^ 32 := by rw [hz]; rfl
  have htext := h.text (I := fun _ => True) (fun _ _ _ _ _ _ => trivial) hs hc hn trivial
    (f := ds) fun c hmem hno => absurd (hd c hmem) (by simp [hno])
  rw [List.filter_eq_self.mpr hd, overflowBehind_nil] at htext
  rcases htext with ⟨hover, hthrows⟩ | ⟨hnone, q, hread, _⟩
  · exact iff_of_true hthrows hover
  · exact iff_of_false (hread.not_throws overflow) hnone

/-- What `Build` makes of a header that inserts. -/
theorem build_insert {p : Parser} {b size : UInt32} {kind : InsertKind} {data : InsertCommand}
    (h : p.build b = some (.ok (some (.insert kind data)), size)) :
    data.flags = p.flags ∧ size = p.bytes := by
  have hs : p.state = .sLF := by
    by_contra hs
    simp [build, hs] at h
  obtain ⟨hsize, ⟨kind', key, hr⟩ | hr | hr | ⟨_, hr⟩⟩ := build_cases hs h
  · cases hr
    exact ⟨rfl, hsize⟩
  · cases hr
  · cases hr
  · cases hr

end Parser

/-- For every header that `Parse` accepts and that inserts, with digits only in
its number fields: `Build` returns the values of both fields if and only if both
are below 2^32. And on the digits of either field `Parse` throws its overflow
error if and only if at one of them the number in 32 bits gets smaller. -/
theorem number_fields_exact_iff (negative : Bool) :
    (∀ (input : Bytes) (p : Parser) (n : Nat) (b size : UInt32) (kind : InsertKind)
        (data : InsertCommand),
      (Parser.fresh negative).parse input = .returned p n → p.parseComplete = true →
      p.build b = some (.ok (some (.insert kind data)), size) →
      (∀ c ∈ (Parser.fresh negative).fieldText .spFlags input, isDigit c = true) →
      (∀ c ∈ (Parser.fresh negative).fieldText .spBytes input, isDigit c = true) →
      ((data.flags.toNat = value ((Parser.fresh negative).fieldText .spFlags input) ∧
          size.toNat = value ((Parser.fresh negative).fieldText .spBytes input)) ↔
        value ((Parser.fresh negative).fieldText .spFlags input) < 2 ^ 32 ∧
          value ((Parser.fresh negative).fieldText .spBytes input) < 2 ^ 32)) ∧
    ∀ (p : Parser) (ds : Bytes), p.parseComplete = false → (∀ c ∈ ds, isDigit c = true) →
      (p.state = .spFlags → p.flags = 0 →
        ((∃ q pos, p.parse ds = .threw q .flagsOverflow pos) ↔ Parser.OverflowSeen ds)) ∧
      (p.state = .spBytes → p.bytes = 0 →
        ((∃ q pos, p.parse ds = .threw q .bytesOverflow pos) ↔ Parser.OverflowSeen ds)) := by
  constructor
  · intro input p n b size kind data hp _ hbuild hflags hbytes
    obtain ⟨hf, rfl⟩ := Parser.build_insert hbuild
    have hfmod := Parser.numberField_flags.toNat rfl hp hflags
    have hbmod := Parser.numberField_bytes.toNat rfl hp hbytes
    rw [hf, hfmod, hbmod]
    omega
  · intro p ds hc hd
    exact ⟨fun hs hz => Parser.numberField_flags.throws_iff hs hc hz hd,
      fun hs hz => Parser.numberField_bytes.throws_iff hs hc hz hd⟩

/-- Ten billion: the last digit takes the number from 1000000000 to 1410065408,
which is not below it. -/
theorem wrapped_number_accepted :
    (∃ p n, (Parser.fresh false).parse (text "set k 10000000000 0 5\r\n") = .returned p n ∧
      p.parseComplete = true ∧
      (Parser.fresh false).fieldText .spFlags (text "set k 10000000000 0 5\r\n") =
        text "10000000000" ∧ value (text "10000000000") = 10000000000 ∧
      p.build 0 = some (.ok (some (.insert .set ⟨text "k", 1410065408, 0⟩)), 5)) ∧
    ∃ p n, (Parser.fresh false).parse (text "set k 7 0 10000000000\r\n") = .returned p n ∧
      p.parseComplete = true ∧
      (Parser.fresh false).fieldText .spBytes (text "set k 7 0 10000000000\r\n") =
        text "10000000000" ∧
      p.build 0 = some (.ok (some (.insert .set ⟨text "k", 7, 0⟩)), 1410065408) := by
  exact ⟨⟨_, _, rfl, by decide, by decide, by decide, by decide⟩,
    _, _, rfl, by decide, by decide, by decide⟩

end Afina
