import Afina.ParserCore

namespace Afina

open Scan Decimal

abbrev Parser.Reads : Parser → Bytes → Parser → Prop := Eats Parser.parseComplete Parser.step

theorem accumulate {n d : Nat} (h : 10 * n + d < 2 ^ 32) :
    UInt32.ofNat n * 10 + UInt32.ofNat d = UInt32.ofNat (10 * n + d) ∧
      ¬ UInt32.ofNat (10 * n + d) < UInt32.ofNat n := by
  constructor
  · rw [UInt32.ofNat_add, UInt32.ofNat_mul, UInt32.mul_comm]
    rfl
  · rw [UInt32.lt_iff_toNat_lt, UInt32.toNat_ofNat', UInt32.toNat_ofNat']
    omega

theorem accumulate_digits {xs pre : Bytes} {c : UInt8} (hpre : pre ++ [c] <+: xs)
    (hx : value xs < 2 ^ 32) :
    UInt32.ofNat (value pre) * 10 + UInt32.ofNat (digit c) = UInt32.ofNat (value (pre ++ [c])) ∧
      ¬ UInt32.ofNat (value (pre ++ [c])) < UInt32.ofNat (value pre) := by
  have hle := value_mono hpre
  rw [value_snoc] at hle ⊢
  exact accumulate (Nat.lt_of_le_of_lt hle hx)

theorem ne_space_of_digit {c : UInt8} (h : isDigit c = true) : c ≠ space ∧ c ≠ cr ∧ c ≠ minus := by
  refine ⟨?_, ?_, ?_⟩ <;>
  · rintro rfl
    exact absurd h (by decide)

theorem expire_add {n d : Nat} (h : n + d < 2 ^ 31) :
    Int32.ofNat n + Int32.ofNat d = Int32.ofNat (n + d) ∧
      ¬ Int32.ofNat (n + d) < Int32.ofNat n := by
  refine ⟨(Int32.ofNat_add n d).symm, ?_⟩
  rw [Int32.lt_iff_toInt_lt, Int32.toInt_ofNat_of_lt h, Int32.toInt_ofNat_of_lt (by omega)]
  omega

theorem expire_sub {n d : Nat} (h : n + d ≤ 2 ^ 31) :
    -Int32.ofNat n - Int32.ofNat d = -Int32.ofNat (n + d) ∧
      ¬ -Int32.ofNat (n + d) > -Int32.ofNat n := by
  constructor
  · rw [Int32.ofNat_add, Int32.neg_add]
  · rw [gt_iff_lt, Int32.lt_iff_toInt_lt, Int32.neg_ofNat, Int32.neg_ofNat,
      Int32.toInt_ofInt_of_le (by omega) (by omega), Int32.toInt_ofInt_of_le (by omega) (by omega)]
    omega

theorem expire_add_over {n d : Nat} (hn : n < 2 ^ 31) (hd : d ≤ 9) (h : 2 ^ 31 ≤ n + d) :
    Int32.ofNat n + Int32.ofNat d < Int32.ofNat n := by
  rw [← Int32.ofNat_add, Int32.lt_iff_toInt_lt, Int32.toInt_ofNat', Int32.toInt_ofNat_of_lt hn,
    Int.bmod_def]
  simp only [Int32.size]
  omega

theorem expire_sub_over {n d : Nat} (hn : n ≤ 2 ^ 31) (hd : d ≤ 9) (h : 2 ^ 31 < n + d) :
    -Int32.ofNat n - Int32.ofNat d > -Int32.ofNat n := by
  have hsum : -Int32.ofNat n - Int32.ofNat d = -Int32.ofNat (n + d) := by
    rw [Int32.ofNat_add, Int32.neg_add]
  rw [hsum, gt_iff_lt, Int32.lt_iff_toInt_lt, Int32.neg_ofNat, Int32.neg_ofNat,
    Int32.toInt_ofInt_of_le (by omega) (by omega), Int32.toInt_ofInt, Int.bmod_def]
  simp only [Int32.size]
  omega

theorem digit_le_nine {c : UInt8} (h : isDigit c = true) : digit c ≤ 9 := by
  simp only [isDigit, Bool.and_eq_true, decide_eq_true_eq, UInt8.le_iff_toNat_le,
    UInt8.reduceToNat] at h
  unfold digit
  omega

/-- What `Parse` makes of an expiry time: its digits are added up. -/
def parsedExpire (exptime : Int32) : Int32 :=
  if exptime.toInt < 0 then -Int32.ofNat (digitSum (render exptime.toInt.natAbs))
  else Int32.ofNat (digitSum (render exptime.toInt.natAbs))

/-- A number of 32 bits as a client writes it, leading zeros included. -/
structure Number where
  digits : Bytes
  nonempty : digits ≠ []
  isDigits : ∀ c ∈ digits, isDigit c = true
  fits : value digits < 2 ^ 32

namespace Number

def toUInt32 (n : Number) : UInt32 := UInt32.ofNat (value n.digits)

def ofUInt32 (n : UInt32) : Number where
  digits := render n.toNat
  nonempty := render_ne_nil _
  isDigits _ := isDigit_of_mem_render
  fits := by rw [value_render]; exact UInt32.toNat_lt n

@[simp] theorem toUInt32_ofUInt32 (n : UInt32) : (ofUInt32 n).toUInt32 = n := by
  simp [toUInt32, ofUInt32, value_render]

end Number

/-- An expiry time as a client writes it. -/
structure Exptime where
  negative : Bool
  digits : Bytes
  nonempty : digits ≠ []
  isDigits : ∀ c ∈ digits, isDigit c = true

def signed (negative : Bool) (n : Nat) : Int := if negative then -n else n

def InInt32 (n : Int) : Prop := -2 ^ 31 ≤ n ∧ n < 2 ^ 31

instance (n : Int) : Decidable (InInt32 n) := inferInstanceAs (Decidable (_ ∧ _))

theorem InInt32.signed_mono {negative : Bool} {m n : Nat} (h : InInt32 (signed negative n))
    (hle : m ≤ n) : InInt32 (signed negative m) := by
  unfold InInt32 signed at h ⊢
  cases negative with
  | true =>
    simp only [if_true] at h ⊢
    omega
  | false =>
    simp only [Bool.false_eq_true, if_false] at h ⊢
    omega

theorem inInt32_of_le_nine (negative : Bool) {n : Nat} (h : n ≤ 9) :
    InInt32 (signed negative n) := by
  refine InInt32.signed_mono (n := 9) ?_ h
  cases negative <;> decide

namespace Exptime

def text (e : Exptime) : Bytes := if e.negative then minus :: e.digits else e.digits

/-- The number that the text denotes. -/
def value (e : Exptime) : Int := signed e.negative (Decimal.value e.digits)

/-- The number that `Parse` makes of the text. -/
def sum (e : Exptime) : Int := signed e.negative (digitSum e.digits)

def ofInt32 (t : Int32) : Exptime where
  negative := decide (t.toInt < 0)
  digits := render t.toInt.natAbs
  nonempty := render_ne_nil _
  isDigits _ := isDigit_of_mem_render

theorem text_ofInt32 (t : Int32) : (ofInt32 t).text = renderInt t.toInt := by
  simp only [text, ofInt32, renderInt, decide_eq_true_eq]
  rfl

theorem value_ofInt32 (t : Int32) : (ofInt32 t).value = t.toInt := by
  simp only [value, signed, ofInt32, value_render, decide_eq_true_eq]
  split <;> omega

theorem sum_ofInt32 (t : Int32) : Int32.ofInt (ofInt32 t).sum = parsedExpire t := by
  simp only [sum, signed, ofInt32, parsedExpire, decide_eq_true_eq]
  split
  next => rw [Int32.neg_ofNat]
  next => rw [Int32.ofInt_eq_ofNat]

theorem sum_between (e : Exptime) :
    (e.negative = true → e.value ≤ e.sum ∧ e.sum ≤ 0) ∧
      (e.negative = false → 0 ≤ e.sum ∧ e.sum ≤ e.value) := by
  have hle := digitSum_le_value e.digits
  constructor
  · intro hneg
    simp only [value, sum, signed, hneg, if_true]
    omega
  · intro hneg
    simp only [value, sum, signed, hneg, Bool.false_eq_true, if_false]
    omega

theorem inInt32_sum_of_value {e : Exptime} (h : InInt32 e.value) : InInt32 e.sum := by
  obtain ⟨hneg, hpos⟩ := e.sum_between
  unfold InInt32 at h ⊢
  cases he : e.negative with
  | true => exact ⟨h.1.trans (hneg he).1, by have := (hneg he).2; omega⟩
  | false => exact ⟨by have := (hpos he).1; omega, (hpos he).2.trans_lt h.2⟩

theorem inInt32_sum_ofInt32 (t : Int32) : InInt32 (ofInt32 t).sum := by
  have hlo := Int32.le_toInt t
  have hhi := Int32.toInt_lt t
  apply inInt32_sum_of_value
  rw [value_ofInt32]
  exact ⟨by omega, by omega⟩

end Exptime

namespace Parser

/-- A loop of the parser: its states depend on the part of a word read so far. -/
theorem reads_loop (f : Bytes → Parser) (hf : ∀ pre, (f pre).parseComplete = false) (xs : Bytes)
    (hstep : ∀ pre c, pre ++ [c] <+: xs → (f pre).step c = .ok (f (pre ++ [c]))) :
    (f []).Reads xs (f xs) :=
  Eats.loop hf xs hstep

theorem parse_threw {p : Parser} {c : UInt8} {e : ParseError} (hc : p.parseComplete = false)
    (h : p.step c = .error e) (rest : Bytes) : p.parse (c :: rest) = .threw p e 0 := by
  simp [parse, scan, hc, h]

def Throws (p : Parser) (input : Bytes) (e : ParseError) : Prop :=
  ∃ q k, p.parse input = .threw q e k

theorem Throws.of_step {p : Parser} {c : UInt8} {e : ParseError} (hc : p.parseComplete = false)
    (h : p.step c = .error e) (rest : Bytes) : p.Throws (c :: rest) e :=
  ⟨p, 0, parse_threw hc h rest⟩

theorem Throws.cons {p q : Parser} {c : UInt8} {input : Bytes} {e : ParseError}
    (hc : p.parseComplete = false) (hstep : p.step c = .ok q) (h : q.Throws input e) :
    p.Throws (c :: input) e := by
  obtain ⟨r, k, hr⟩ := h
  refine ⟨r, 1 + k, ?_⟩
  rw [parse, scan_cons hc hstep]
  exact congrArg (Result.later 1) hr

theorem Throws.append {p : Parser} {input : Bytes} {e : ParseError} (h : p.Throws input e)
    (rest : Bytes) : p.Throws (input ++ rest) e := by
  obtain ⟨r, k, hr⟩ := h
  refine ⟨r, k, ?_⟩
  rw [parse] at hr ⊢
  rw [scan_append, hr]

theorem Throws.of_reads {p q : Parser} {input rest : Bytes} {e : ParseError}
    (h : p.Reads input q) (hthrows : q.Throws rest e) : p.Throws (input ++ rest) e := by
  obtain ⟨r, k, hr⟩ := hthrows
  refine ⟨r, input.length + k, ?_⟩
  rw [parse, h]
  exact congrArg (Result.later input.length) hr

theorem Reads.not_throws {p q : Parser} {input : Bytes} (h : p.Reads input q) (e : ParseError) :
    ¬ p.Throws input e := by
  rintro ⟨r, k, hr⟩
  have hread := h []
  rw [List.append_nil] at hread
  exact absurd (hread.symm.trans hr) (by simp [scan])

theorem reads_name {p : Parser} (hs : p.state = .sName) (hc : p.parseComplete = false)
    (hn : p.name = []) {name : Bytes} (hname : ∀ c ∈ name, c ≠ space ∧ c ≠ cr) :
    p.Reads name { p with name := name } := by
  have hstart : ({ p with name := [] } : Parser) = p := by rw [← hn]
  have hloop := reads_loop (fun pre => { p with name := pre }) (fun _ => hc) name (by
    intro pre c hpre
    have hmem := hname c (hpre.subset (by simp))
    simp [step, hs, stepName, hmem.1, hmem.2])
  rwa [hstart] at hloop

theorem reads_keyText {p : Parser} (hs : p.state = .spKey) (hc : p.parseComplete = false)
    (hk : p.curKey = []) {key : Bytes} (hkey : space ∉ key) :
    p.Reads key { p with curKey := key } := by
  have hstart : ({ p with curKey := [] } : Parser) = p := by rw [← hk]
  have hloop := reads_loop (fun pre => { p with curKey := pre }) (fun _ => hc) key (by
    intro pre c hpre
    have hmem : c ≠ space := fun he => hkey (he ▸ hpre.subset (by simp))
    simp [step, hs, stepPutKey, hmem])
  rwa [hstart] at hloop

theorem reads_putKey {p : Parser} (hs : p.state = .spKey) (hc : p.parseComplete = false)
    (hk : p.curKey = []) {key : Bytes} (hkey : space ∉ key) :
    p.Reads (key ++ [space])
      { p with curKey := key, state := .spFlags, keys := p.keys ++ [key] } :=
  (reads_keyText hs hc hk hkey).trans (.single hc (by simp [step, hs, stepPutKey]))

theorem reads_flags {p : Parser} (hs : p.state = .spFlags) (hc : p.parseComplete = false)
    (hz : p.flags = 0) (n : Number) :
    p.Reads (n.digits ++ [space])
      { p with flags := n.toUInt32, negative := false, state := .spExprTimeStart } := by
  have hstart : ({ p with flags := UInt32.ofNat (value []) } : Parser) = p := by
    rw [show UInt32.ofNat (value []) = p.flags from hz.symm]
  have hloop := reads_loop (fun pre => { p with flags := UInt32.ofNat (value pre) }) (fun _ => hc)
    n.digits (by
      intro pre c hpre
      have hd := n.isDigits c (hpre.subset (by simp))
      have hacc := accumulate_digits hpre n.fits
      simp [step, hs, stepFlags, hd, (ne_space_of_digit hd).1, hacc.1, hacc.2,
        -UInt32.ofNat_add, -UInt32.ofNat_mul])
  rw [hstart] at hloop
  exact hloop.trans (.single hc (by simp [step, hs, stepFlags, Number.toUInt32]))

theorem reads_bytes {p : Parser} (hs : p.state = .spBytes) (hc : p.parseComplete = false)
    (hz : p.bytes = 0) (n : Number) :
    p.Reads (n.digits ++ [cr]) { p with bytes := n.toUInt32, state := .sLF } := by
  have hstart : ({ p with bytes := UInt32.ofNat (value []) } : Parser) = p := by
    rw [show UInt32.ofNat (value []) = p.bytes from hz.symm]
  have hloop := reads_loop (fun pre => { p with bytes := UInt32.ofNat (value pre) }) (fun _ => hc)
    n.digits (by
      intro pre c hpre
      have hd := n.isDigits c (hpre.subset (by simp))
      have hacc := accumulate_digits hpre n.fits
      simp [step, hs, stepBytes, hd, (ne_space_of_digit hd).2.1, hacc.1, hacc.2,
        -UInt32.ofNat_add, -UInt32.ofNat_mul])
  rw [hstart] at hloop
  exact hloop.trans (.single hc (by simp [step, hs, stepBytes, Number.toUInt32]))

/-- One more digit of an expiry time whose digits so far add up to `n`. -/
theorem step_exptime_digit {p : Parser} (hs : p.state = .spExprTime) {n : Nat}
    (hz : p.exprtime = Int32.ofInt (signed p.negative n)) (hn : InInt32 (signed p.negative n))
    {c : UInt8} (hd : isDigit c = true) :
    (InInt32 (signed p.negative (n + digit c)) → p.step c =
        .ok { p with exprtime := Int32.ofInt (signed p.negative (n + digit c)) }) ∧
      (¬ InInt32 (signed p.negative (n + digit c)) → p.step c = .error .expireTimeOverflow) := by
  have hnine := digit_le_nine hd
  have hspace := (ne_space_of_digit hd).1
  unfold InInt32 at hn ⊢
  cases hneg : p.negative with
  | true =>
    simp only [hneg, signed, if_true, ← Int32.neg_ofNat] at hz hn ⊢
    constructor
    · intro hin
      have hsub := expire_sub (n := n) (d := digit c) (by omega)
      simp [step, hs, stepExprTime, hspace, hd, hneg, hz, hsub.1, hsub.2, -Int32.ofNat_add]
    · intro hout
      have hover := expire_sub_over (n := n) (by omega) hnine (by omega)
      simp [step, hs, stepExprTime, hspace, hd, hneg, hz, hover]
  | false =>
    simp only [hneg, signed, Bool.false_eq_true, if_false, Int32.ofInt_eq_ofNat] at hz hn ⊢
    constructor
    · intro hin
      have hadd := expire_add (n := n) (d := digit c) (by omega)
      simp [step, hs, stepExprTime, hspace, hd, hneg, hz, hadd.1, hadd.2, -Int32.ofNat_add]
    · intro hout
      have hover := expire_add_over (n := n) (by omega) hnine (by omega)
      simp [step, hs, stepExprTime, hspace, hd, hneg, hz, hover]

/-- The text of an expiry time behind its sign or first digit: the characters that
are no digits are skipped, and the digits add up to an `int32_t`, or they do not. -/
theorem time_text {p : Parser} (hs : p.state = .spExprTime) (hc : p.parseComplete = false)
    {n : Nat} (hz : p.exprtime = Int32.ofInt (signed p.negative n))
    (hn : InInt32 (signed p.negative n)) {m : Bytes} (hm : space ∉ m) :
    (¬ InInt32 (signed p.negative (n + digitSum (m.filter isDigit))) ∧
        p.Throws m .expireTimeOverflow) ∨
      (InInt32 (signed p.negative (n + digitSum (m.filter isDigit))) ∧
        p.Reads m { p with
          exprtime := Int32.ofInt (signed p.negative (n + digitSum (m.filter isDigit))) }) := by
  induction m generalizing p n with
  | nil =>
    refine Or.inr ⟨hn, ?_⟩
    have hsame : ({ p with exprtime := Int32.ofInt (signed p.negative n) } : Parser) = p := by
      rw [← hz]
    rw [List.filter_nil, show n + digitSum [] = n from rfl, hsame]
    exact .nil p
  | cons c m ih =>
    obtain ⟨hspace, hm⟩ := not_or.mp (fun h => hm (List.mem_cons.mpr h))
    cases hd : isDigit c with
    | false =>
      have hskip : p.step c = .ok p := by
        simp [step, hs, stepExprTime, show c ≠ space from fun h => hspace h.symm, hd]
      rw [List.filter_cons_of_neg (by simp [hd])]
      rcases ih hs hc hz hn hm with ⟨hout, hthrows⟩ | ⟨hin, hread⟩
      · exact Or.inl ⟨hout, hthrows.cons hc hskip⟩
      · exact Or.inr ⟨hin, (Eats.single hc hskip).trans hread⟩
    | true =>
      rw [List.filter_cons_of_pos hd, digitSum_cons, ← Nat.add_assoc]
      obtain ⟨hok, hover⟩ := step_exptime_digit hs hz hn hd
      by_cases hin : InInt32 (signed p.negative (n + digit c))
      · rcases ih (p := { p with exprtime := Int32.ofInt (signed p.negative (n + digit c)) }) hs hc
          rfl hin hm with ⟨hout, hthrows⟩ | ⟨hin', hread⟩
        · exact Or.inl ⟨hout, hthrows.cons hc (hok hin)⟩
        · exact Or.inr ⟨hin', (Eats.single hc (hok hin)).trans hread⟩
      · refine Or.inl ⟨fun hall => hin (hall.signed_mono (Nat.le_add_right _ _)), ?_⟩
        exact .of_step hc (hover hin) m

theorem digits_text {p : Parser} (hs : p.state = .spExprTime) (hc : p.parseComplete = false)
    {n : Nat} (hz : p.exprtime = Int32.ofInt (signed p.negative n))
    (hn : InInt32 (signed p.negative n)) {ds : Bytes} (hds : ∀ c ∈ ds, isDigit c = true) :
    (¬ InInt32 (signed p.negative (n + digitSum ds)) ∧ p.Throws ds .expireTimeOverflow) ∨
      (InInt32 (signed p.negative (n + digitSum ds)) ∧
        p.Reads ds { p with exprtime := Int32.ofInt (signed p.negative (n + digitSum ds)) }) := by
  have hspace : space ∉ ds := fun hmem => (ne_space_of_digit (hds space hmem)).1 rfl
  have htext := time_text hs hc hz hn hspace
  rwa [List.filter_eq_self.mpr hds] at htext

/-- The first character of an expiry time, its sign or its first digit. -/
theorem reads_exptime_start {p : Parser} (hs : p.state = .spExprTimeStart)
    (hc : p.parseComplete = false) (hn : p.negative = false) (hz : p.exprtime = 0) (e : Exptime) :
    ∃ c ds n, e.text = c :: ds ∧ (∀ d ∈ ds, isDigit d = true) ∧
      n + digitSum ds = digitSum e.digits ∧ InInt32 (signed e.negative n) ∧
      p.Reads [c] { p with exprtime := Int32.ofInt (signed e.negative n), negative := e.negative,
                           state := .spExprTime } := by
  cases hneg : e.negative with
  | true =>
    refine ⟨minus, e.digits, 0, by simp [Exptime.text, hneg], e.isDigits, Nat.zero_add _,
      by decide, .single hc ?_⟩
    simp [step, hs, stepExprTimeStart, hz, signed]
  | false =>
    obtain ⟨d, ds, hd⟩ := List.exists_cons_of_ne_nil e.nonempty
    have hdigits : ∀ c ∈ d :: ds, isDigit c = true := by
      rw [← hd]
      exact e.isDigits
    have hfirst := hdigits d List.mem_cons_self
    refine ⟨d, ds, digit d, by simp [Exptime.text, hneg, hd],
      fun c hmem => hdigits c (List.mem_cons_of_mem d hmem), by simp [digitSum, hd],
      inInt32_of_le_nine false (digit_le_nine hfirst), .single hc ?_⟩
    simp [step, hs, stepExprTimeStart, hfirst, (ne_space_of_digit hfirst).2.2, signed, hn,
      Int32.ofInt_eq_ofNat]

theorem reads_exptime {p : Parser} (hs : p.state = .spExprTimeStart)
    (hc : p.parseComplete = false) (hn : p.negative = false) (hz : p.exprtime = 0) (e : Exptime)
    (he : InInt32 e.sum) :
    p.Reads (e.text ++ [space])
      { p with exprtime := Int32.ofInt e.sum, negative := e.negative, state := .spBytes } := by
  obtain ⟨c, ds, n, htext, hds, hsum, hin, hfirst⟩ := reads_exptime_start hs hc hn hz e
  have hdigits := digits_text
    (p := { p with exprtime := Int32.ofInt (signed e.negative n), negative := e.negative,
                   state := .spExprTime }) rfl hc rfl hin hds
  rw [hsum] at hdigits
  rcases hdigits with ⟨hout, _⟩ | ⟨_, hread⟩
  · exact absurd he hout
  · rw [htext]
    exact (hfirst.trans hread).trans (.single hc (by simp [step, stepExprTime, Exptime.sum]))

theorem reads_getKey {p : Parser} (hs : p.state = .sgKey) (hc : p.parseComplete = false)
    (hk : p.curKey = []) {key : Bytes} (hkey : space ∉ key ∧ cr ∉ key) :
    p.Reads key { p with curKey := key } := by
  have hstart : ({ p with curKey := [] } : Parser) = p := by rw [← hk]
  have hloop := reads_loop (fun pre => { p with curKey := pre }) (fun _ => hc) key (by
    intro pre c hpre
    have hmem : c ∈ key := hpre.subset (by simp)
    have hne : c ≠ space ∧ c ≠ cr :=
      ⟨fun he => hkey.1 (he ▸ hmem), fun he => hkey.2 (he ▸ hmem)⟩
    simp [step, hs, stepGetKey, hne.1, hne.2])
  rwa [hstart] at hloop

theorem reads_getKeys {p : Parser} (hs : p.state = .sgKey) (hc : p.parseComplete = false)
    {keys : List Bytes} (hkeys : ∀ k ∈ keys, space ∉ k ∧ cr ∉ k) :
    p.Reads (keys.flatMap (fun k => space :: k) ++ [cr])
      { p with keys := p.keys ++ p.curKey :: keys, curKey := [], state := .sLF } := by
  induction keys generalizing p with
  | nil => exact .single hc (by simp [step, hs, stepGetKey])
  | cons k keys ih =>
    have hsep : p.Reads [space] { p with keys := p.keys ++ [p.curKey], curKey := [] } :=
      .single hc (by simp [step, hs, stepGetKey, space, cr])
    have hkey := hsep.trans (reads_getKey (p := { p with keys := p.keys ++ [p.curKey], curKey := [] }) hs hc rfl
      (hkeys k List.mem_cons_self))
    have hrest := hkey.trans (ih (p := { p with keys := p.keys ++ [p.curKey], curKey := k }) hs hc
      fun k' hk' => hkeys k' (List.mem_cons_of_mem k hk'))
    simpa using hrest

theorem reads_LF {p : Parser} (hs : p.state = .sLF) (hc : p.parseComplete = false) :
    p.Reads [lf] { p with parseComplete := true } :=
  .single hc (by simp [step, hs, stepLF])

end Parser

end Afina
