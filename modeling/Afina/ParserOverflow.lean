import Afina.ParserNumbers

namespace Afina

open Scan Decimal

/-- The names whose headers have the number fields. -/
def putVerbs : List Bytes := [text "set", text "add", text "append", text "prepend"]

/-- A storing header up to the space behind its key. -/
def PutStart (h : Bytes) : Prop :=
  ∃ name sep key, name ∈ putVerbs ∧ (sep = space ∨ sep = cr) ∧ space ∉ key ∧
    h = name ++ [sep] ++ (key ++ [space])

/-- A character with which an expiry time begins. -/
def beginsTime (c : UInt8) : Bool := isDigit c || c == minus

/-- A storing header up to where its expiry time begins. -/
def TimeStart (h : Bytes) : Prop :=
  ∃ start f skipped, PutStart start ∧ space ∉ f ∧ (∀ c ∈ skipped, beginsTime c = false) ∧
    h = start ++ f ++ ([space] ++ skipped)

/-- Storing headers in which an overflow is noticed: of the flags, of the sum of the
digits of the expiry time, or of the bytes. -/
inductive Overflows : Bytes → Prop
  | flags {start f : Bytes} (hstart : PutStart start) (hf : space ∉ f)
      (hover : Parser.OverflowSeen (f.filter isDigit)) (rest : Bytes) :
      Overflows (start ++ f ++ rest)
  | time {start more : Bytes} {c : UInt8} (hstart : TimeStart start) (hc : beginsTime c = true)
      (hmore : space ∉ more)
      (hover : ¬ InInt32 (signed (c == minus) (digitSum ((c :: more).filter isDigit))))
      (rest : Bytes) : Overflows (start ++ (c :: more) ++ rest)
  | bytes {start more b : Bytes} {c : UInt8} (hstart : TimeStart start) (hc : beginsTime c = true)
      (hmore : space ∉ more) (hb : cr ∉ b) (hover : Parser.OverflowSeen (b.filter isDigit))
      (rest : Bytes) : Overflows (start ++ (c :: more) ++ [space] ++ b ++ rest)

theorem Overflows.append {u : Bytes} (h : Overflows u) (rest : Bytes) : Overflows (u ++ rest) := by
  cases h with
  | flags hstart hf hover more =>
    rw [List.append_assoc]
    exact .flags hstart hf hover (more ++ rest)
  | time hstart hc hmore hover more =>
    rw [List.append_assoc]
    exact .time hstart hc hmore hover (more ++ rest)
  | bytes hstart hc hmore hb hover more =>
    rw [List.append_assoc]
    exact .bytes hstart hc hmore hb hover (more ++ rest)

namespace Parser

theorem commandNames_chars {name : Bytes} (h : name ∈ commandNames) :
    ∀ c ∈ name, c ≠ space ∧ c ≠ cr := by
  simp only [commandNames, List.mem_cons, List.not_mem_nil, or_false] at h
  rcases h with rfl | rfl | rfl | rfl | rfl | rfl | rfl <;> decide +kernel

theorem mem_commandNames_of_putVerbs {name : Bytes} (h : name ∈ putVerbs) :
    name ∈ commandNames :=
  List.mem_append_left [text "get", text "gets", text "stats"] h

theorem reads_verb (negative : Bool) {name : Bytes} {sep : UInt8} (hname : name ∈ putVerbs)
    (hsep : sep = space ∨ sep = cr) :
    (fresh negative).Reads (name ++ [sep])
      { fresh negative with name := name, state := .spKey } := by
  have hchars := commandNames_chars (mem_commandNames_of_putVerbs hname)
  refine (reads_name rfl rfl rfl hchars).trans (.single rfl ?_)
  simp only [putVerbs, List.mem_cons, List.not_mem_nil, or_false] at hname
  simp [step, fresh, stepName, hsep, hname]

theorem reads_through_key (negative : Bool) {h : Bytes} (hh : PutStart h) :
    ∃ p, (fresh negative).Reads h p ∧ p.state = .spFlags ∧ p.parseComplete = false ∧
      p.flags = 0 ∧ p.exprtime = 0 ∧ p.bytes = 0 := by
  obtain ⟨name, sep, key, hname, hsep, hkey, rfl⟩ := hh
  exact ⟨_, (reads_verb negative hname hsep).trans (reads_putKey rfl rfl rfl hkey), rfl, rfl, rfl,
    rfl, rfl⟩

theorem step_flags_keeps {p q : Parser} {c : UInt8} (hs : p.state = .spFlags)
    (hq : p.step c = .ok q) : q.exprtime = p.exprtime ∧ q.bytes = p.bytes := by
  simp only [step, hs, stepFlags] at hq
  repeat' split at hq
  all_goals
    cases hq
    try exact ⟨rfl, rfl⟩

/-- How a storing header is read up to the end of its flags. -/
theorem flags_read (negative : Bool) {start f : Bytes} (hstart : PutStart start)
    (hf : space ∉ f) :
    (Overflows (start ++ f) ∧ (fresh negative).Throws (start ++ f) .flagsOverflow) ∨
      (¬ OverflowSeen (f.filter isDigit) ∧ ∃ p, (fresh negative).Reads (start ++ f) p ∧
        p.state = .spFlags ∧ p.parseComplete = false ∧ p.exprtime = 0 ∧ p.bytes = 0) := by
  obtain ⟨p, hread, hs, hc, hz, hrest⟩ := reads_through_key negative hstart
  have hn : (flags p).toNat = value [] % 2 ^ 32 := by
    rw [hz]
    rfl
  have htext := numberField_flags.text (I := fun q => q.exprtime = 0 ∧ q.bytes = 0) ?_ hs hc hn
    hrest (f := f) ?_
  · rw [overflowBehind_nil] at htext
    rcases htext with ⟨hover, hthrows⟩ | ⟨hnone, q, hfield, hq⟩
    · refine Or.inl ⟨?_, hthrows.of_reads hread⟩
      simpa using Overflows.flags hstart hf hover []
    · exact Or.inr ⟨hnone, q, hread.trans hfield, hq⟩
  · intro s c q hstate hstep hzero
    obtain ⟨htime, hbytes⟩ := step_flags_keeps hstate hstep
    exact ⟨htime.trans hzero.1, hbytes.trans hzero.2⟩
  · intro c hmem hd q hstate
    have hspace : c ≠ space := fun he => hf (he ▸ hmem)
    simp [step, hstate, stepFlags, hspace, hd]

theorem skips_time {p : Parser} (hs : p.state = .spExprTimeStart) (hc : p.parseComplete = false)
    {skipped : Bytes} (h : ∀ c ∈ skipped, beginsTime c = false) : p.Reads skipped p := by
  induction skipped with
  | nil => exact .nil p
  | cons c rest ih =>
    have hfirst := h c List.mem_cons_self
    simp only [beginsTime, Bool.or_eq_false_iff, beq_eq_false_iff_ne] at hfirst
    have hskip : p.step c = .ok p := by
      simp [step, hs, stepExprTimeStart, hfirst.1, hfirst.2]
    exact (Eats.single hc hskip).trans (ih fun d hd => h d (List.mem_cons_of_mem c hd))

/-- How a storing header is read up to the start of its expiry time. -/
theorem start_read (negative : Bool) {h : Bytes} (hh : TimeStart h) :
    (Overflows h ∧ (fresh negative).Throws h .flagsOverflow) ∨
      ∃ p, (fresh negative).Reads h p ∧ p.state = .spExprTimeStart ∧ p.parseComplete = false ∧
        p.negative = false ∧ p.exprtime = 0 ∧ p.bytes = 0 := by
  obtain ⟨start, f, skipped, hstart, hf, hskipped, rfl⟩ := hh
  rcases flags_read negative hstart hf with ⟨hover, hthrows⟩ | ⟨_, p, hread, hs, hc, hzero⟩
  · exact Or.inl ⟨hover.append _, hthrows.append _⟩
  · have hspace : p.step space = .ok { p with negative := false, state := .spExprTimeStart } := by
      simp [step, hs, stepFlags]
    have hskip := skips_time (p := { p with negative := false, state := .spExprTimeStart }) rfl hc
      hskipped
    exact Or.inr ⟨_, hread.trans ((Eats.single hc hspace).trans hskip), rfl, hc, rfl, hzero⟩

/-- The text of an expiry time from its sign or first digit on. -/
theorem begun_text {p : Parser} (hs : p.state = .spExprTimeStart) (hc : p.parseComplete = false)
    (hn : p.negative = false) (hz : p.exprtime = 0) {c : UInt8} (hb : beginsTime c = true)
    {m : Bytes} (hm : space ∉ m) :
    (¬ InInt32 (signed (c == minus) (digitSum ((c :: m).filter isDigit))) ∧
        p.Throws (c :: m) .expireTimeOverflow) ∨
      (InInt32 (signed (c == minus) (digitSum ((c :: m).filter isDigit))) ∧
        ∃ t, p.Reads (c :: m)
          { p with exprtime := t, negative := (c == minus), state := .spExprTime }) := by
  have hfirst : ∃ k, k + digitSum (m.filter isDigit) = digitSum ((c :: m).filter isDigit) ∧
      InInt32 (signed (c == minus) k) ∧
      p.step c = .ok { p with exprtime := Int32.ofInt (signed (c == minus) k),
                              negative := (c == minus), state := .spExprTime } := by
    by_cases hminus : c = minus
    · subst hminus
      refine ⟨0, ?_, by decide, by simp [step, hs, stepExprTimeStart, hz, signed]⟩
      rw [List.filter_cons_of_neg (by decide), Nat.zero_add]
    · have hd : isDigit c = true := by simpa [beginsTime, hminus] using hb
      refine ⟨digit c, ?_, inInt32_of_le_nine _ (digit_le_nine hd), ?_⟩
      · rw [List.filter_cons_of_pos hd, digitSum_cons]
      · simp [step, hs, stepExprTimeStart, hd, hminus, signed, hn, Int32.ofInt_eq_ofNat]
  obtain ⟨k, hsum, hin, hstep⟩ := hfirst
  have htext := time_text
    (p := { p with exprtime := Int32.ofInt (signed (c == minus) k), negative := (c == minus),
                   state := .spExprTime }) rfl hc rfl hin hm
  rw [hsum] at htext
  rcases htext with ⟨hout, hthrows⟩ | ⟨hall, hread⟩
  · exact Or.inl ⟨hout, hthrows.cons hc hstep⟩
  · exact Or.inr ⟨hall, _, (Eats.single hc hstep).trans hread⟩

/-- How a storing header is read up to the end of its expiry time. -/
theorem time_read (negative : Bool) {start more : Bytes} {c : UInt8} (hstart : TimeStart start)
    (hc : beginsTime c = true) (hmore : space ∉ more) :
    (Overflows (start ++ (c :: more)) ∧ ∃ e, (fresh negative).Throws (start ++ (c :: more)) e) ∨
      (InInt32 (signed (c == minus) (digitSum ((c :: more).filter isDigit))) ∧
        ∃ p, (fresh negative).Reads (start ++ (c :: more)) p ∧ p.state = .spExprTime ∧
          p.parseComplete = false ∧ p.bytes = 0) := by
  rcases start_read negative hstart with
    ⟨hover, hthrows⟩ | ⟨p, hread, hs, hopen, hn, hz, hzero⟩
  · exact Or.inl ⟨hover.append _, _, hthrows.append _⟩
  · rcases begun_text hs hopen hn hz hc hmore with ⟨hout, hthrows⟩ | ⟨hin, t, hfield⟩
    · refine Or.inl ⟨?_, _, hthrows.of_reads hread⟩
      simpa using Overflows.time hstart hc hmore hout []
    · exact Or.inr ⟨hin, _, hread.trans hfield, rfl, hopen, hzero⟩

/-- How a storing header is read up to the end of its bytes. -/
theorem bytes_read (negative : Bool) {start more b : Bytes} {c : UInt8} (hstart : TimeStart start)
    (hc : beginsTime c = true) (hmore : space ∉ more) (hb : cr ∉ b) :
    (Overflows (start ++ (c :: more) ++ [space] ++ b) ∧
        ∃ e, (fresh negative).Throws (start ++ (c :: more) ++ [space] ++ b) e) ∨
      (¬ OverflowSeen (b.filter isDigit) ∧
        ∃ p, (fresh negative).Reads (start ++ (c :: more) ++ [space] ++ b) p ∧
          p.state = .spBytes ∧ p.parseComplete = false) := by
  rcases time_read negative hstart hc hmore with
    ⟨hover, e, hthrows⟩ | ⟨_, p, hread, hs, hopen, hz⟩
  · exact Or.inl ⟨(hover.append _).append _, e, (hthrows.append _).append _⟩
  · have hspace : p.step space = .ok { p with state := .spBytes } := by
      simp [step, hs, stepExprTime]
    have hstarted := hread.trans (.single hopen hspace)
    have hn : (bytes { p with state := .spBytes }).toNat = value [] % 2 ^ 32 := by
      simp only [hz]
      rfl
    have htext := numberField_bytes.text (p := { p with state := .spBytes }) (I := fun _ => True)
      (fun _ _ _ _ _ _ => trivial) rfl hopen hn trivial (f := b) ?_
    · rw [overflowBehind_nil] at htext
      rcases htext with ⟨hover, hthrows⟩ | ⟨hnone, q, hfield, hq, hcomplete, _⟩
      · refine Or.inl ⟨?_, _, hthrows.of_reads hstarted⟩
        simpa using Overflows.bytes hstart hc hmore hb hover []
      · exact Or.inr ⟨hnone, q, hstarted.trans hfield, hq, hcomplete⟩
    · intro d hmem hd q hstate
      have hcr : d ≠ cr := fun he => hb (he ▸ hmem)
      simp [step, hstate, stepBytes, hcr, hd]

end Parser

theorem Overflows.throws {u : Bytes} (h : Overflows u) (negative : Bool) :
    ∃ e, (Parser.fresh negative).Throws u e := by
  cases h with
  | flags hstart hf hover rest =>
    rcases Parser.flags_read negative hstart hf with ⟨_, hthrows⟩ | ⟨hnone, _⟩
    · exact ⟨_, hthrows.append rest⟩
    · exact absurd hover hnone
  | time hstart hc hmore hover rest =>
    rcases Parser.time_read negative hstart hc hmore with ⟨_, e, hthrows⟩ | ⟨hin, _⟩
    · exact ⟨e, hthrows.append rest⟩
    · exact absurd hin hover
  | bytes hstart hc hmore hb hover rest =>
    rcases Parser.bytes_read negative hstart hc hmore hb with ⟨_, e, hthrows⟩ | ⟨hnone, _⟩
    · exact ⟨e, hthrows.append rest⟩
    · exact absurd hover hnone

end Afina
