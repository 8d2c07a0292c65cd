import Afina.ParserGrammar
import Afina.ParserOverflow

namespace Afina

open Scan Decimal

namespace Parser

/-- What has been read of a storing header in each state. -/
structure Headed (v : Bytes) (p : Parser) : Prop where
  name : p.state = .sName → p.name = v ∧ p.curKey = []
  key : p.state = .spKey → p.name ∈ putVerbs ∧
    ∃ sep, (sep = space ∨ sep = cr) ∧ space ∉ p.curKey ∧ v = p.name ++ [sep] ++ p.curKey
  get : p.state = .sgKey → p.name ∉ putVerbs
  fields : p.state ∈ [.spFlags, .spExprTimeStart, .spExprTime, .spBytes] →
    ∃ h, PutStart h ∧ h <+: v
  line : p.state = .sLF → p.name ∈ putVerbs → ∃ h, PutStart h ∧ h <+: v

theorem headed_fresh (negative : Bool) : Headed [] (fresh negative) :=
  ⟨fun _ => ⟨rfl, rfl⟩, by simp [fresh], by simp [fresh], by simp [fresh], by simp [fresh]⟩

theorem Headed.of_start {v h : Bytes} {q : Parser} (hh : PutStart h) (hv : h <+: v)
    (hs : q.state ≠ .sName) (hk : q.state ≠ .spKey) (hg : q.state ≠ .sgKey) : Headed v q :=
  ⟨fun he => absurd he hs, fun he => absurd he hk, fun he => absurd he hg, fun _ => ⟨h, hh, hv⟩,
    fun _ _ => ⟨h, hh, hv⟩⟩

theorem Headed.of_other {v : Bytes} {q : Parser} (hname : q.name ∉ putVerbs)
    (hs : q.state = .sgKey ∨ q.state = .sLF) : Headed v q := by
  refine ⟨fun he => ?_, fun he => ?_, fun _ => hname, fun he => ?_, fun _ hn => absurd hn hname⟩
  · rcases hs with hs | hs <;> simp [hs] at he
  · rcases hs with hs | hs <;> simp [hs] at he
  · rcases hs with hs | hs <;> simp [hs] at he

theorem Headed.stepName {v : Bytes} {p q : Parser} {c : UInt8} (h : Headed v p)
    (hs : p.state = .sName) (hq : p.stepName c = .ok q) : Headed (v ++ [c]) q := by
  obtain ⟨hname, hkey⟩ := h.name hs
  unfold Parser.stepName at hq
  split at hq
  next hsep =>
    split at hq
    next hput =>
      cases hq
      refine ⟨by simp, fun _ => ⟨by simp [putVerbs, hput], c, hsep, by simp [hkey], ?_⟩, by simp,
        by simp, by simp⟩
      simp [hname, hkey]
    next hput =>
      have hverb : p.name ∉ putVerbs := by simpa [putVerbs] using hput
      split at hq
      next => cases hq; exact .of_other hverb (Or.inl rfl)
      next =>
        split at hq
        next => cases hq; exact .of_other hverb (Or.inr rfl)
        next => cases hq
  next =>
    cases hq
    exact ⟨fun _ => ⟨by rw [hname], hkey⟩, by simp [hs], by simp [hs], by simp [hs], by simp [hs]⟩

theorem Headed.step {v : Bytes} {p q : Parser} {c : UInt8} (h : Headed v p)
    (hq : p.step c = .ok q) : Headed (v ++ [c]) q := by
  have hgrow : ∀ {h : Bytes}, h <+: v → h <+: v ++ [c] := fun hv =>
    hv.trans (List.prefix_append _ _)
  cases hs : p.state <;> simp only [Parser.step, hs] at hq
  case sName => exact h.stepName hs hq
  case sCR => cases hq
  case spKey =>
    obtain ⟨hname, sep, hsep, hkey, hv⟩ := h.key hs
    unfold stepPutKey at hq
    split at hq
    next hspace =>
      cases hq
      refine .of_start ⟨p.name, sep, p.curKey, hname, hsep, hkey, rfl⟩ ?_ (by simp) (by simp)
        (by simp)
      rw [hv, hspace, List.append_assoc (p.name ++ [sep])]
    next hspace =>
      cases hq
      refine ⟨by simp [hs], fun _ => ⟨hname, sep, hsep, ?_, by simp [hv]⟩, by simp [hs],
        by simp [hs], by simp [hs]⟩
      simp [hkey, Ne.symm hspace]
  case sgKey =>
    have hname := h.get hs
    unfold stepGetKey at hq
    dsimp only at hq
    repeat' split at hq
    all_goals
      cases hq
      try exact .of_other hname (by simp [hs])
  case sLF =>
    unfold Parser.stepLF at hq
    split at hq
    next =>
      cases hq
      refine ⟨by simp [hs], by simp [hs], by simp [hs], by simp [hs], fun _ hn => ?_⟩
      obtain ⟨h', hh, hv⟩ := h.line hs hn
      exact ⟨h', hh, hgrow hv⟩
    next => cases hq
  -- the number fields stay behind the start that they have
  all_goals
    obtain ⟨h', hh, hv⟩ := h.fields (by simp [hs])
    simp only [stepFlags, stepExprTimeStart, stepExprTime, stepBytes] at hq
    repeat' split at hq
    all_goals
      cases hq
      try exact .of_start hh (hgrow hv) (by simp [hs]) (by simp [hs]) (by simp [hs])

theorem headed_parse {negative : Bool} {p : Parser} {input : Bytes} {n : Nat}
    (h : (fresh negative).parse input = .returned p n) : Headed (input.take n) p :=
  trace_of_returned (headed_fresh negative) (fun _ _ _ _ hp _ _ _ hstep => hp.step hstep) h

end Parser

def Field.state : Field → ParserState
  | .flags _ => .spFlags
  | .start => .spExprTimeStart
  | .time _ => .spExprTime
  | .bytes _ => .spBytes
  | .line => .sLF
  | .done => .sLF

theorem Field.run_of_completion {u w : Bytes} (h : NumbersText (u ++ w)) :
    ∃ s, (flags false).run u = some s := by
  have hrun := (run_done_iff _).mpr h
  rw [run_append] at hrun
  obtain ⟨s, hs, _⟩ := Option.bind_eq_some_iff.mp hrun
  exact ⟨s, hs⟩

theorem Field.completion_of_run {u : Bytes} {s : Field} (h : (flags false).run u = some s)
    (hs : s ≠ .done) : ∃ w, NumbersText (u ++ w) := by
  obtain ⟨w, hw⟩ := exists_completion s hs
  refine ⟨w, (run_done_iff _).mp ?_⟩
  rw [run_append, h]
  exact hw

/-- A CR leads the strict reader to the end of the line only. -/
theorem Field.line_iff_cr {u : Bytes} {s : Field} (h : (flags false).run u = some s) :
    s = .line ↔ u.getLast? = some cr := by
  constructor
  · rintro rfl
    obtain ⟨f, sign, e, b, _, _, _, _, rfl⟩ := text_of_run h
    exact List.getLast?_concat
  · intro hlast
    obtain ⟨v, rfl⟩ := List.getLast?_eq_some_iff.mp hlast
    rw [run_snoc] at h
    obtain ⟨t, _, hnext⟩ := Option.bind_eq_some_iff.mp h
    have hcr : isDigit cr = false ∧ cr ≠ space ∧ cr ≠ minus ∧ cr ≠ lf := by decide
    cases t with
    | bytes any =>
      simp only [next, hcr, Bool.false_eq_true, if_false] at hnext
      split at hnext
      next => cases hnext; rfl
      next => cases hnext
    | _ => simp [next, hcr] at hnext

namespace Parser

/-- The parser is where the strict reader is. -/
structure Tracks (s : Field) (p : Parser) : Prop where
  state : p.state = s.state
  complete : p.parseComplete = true ↔ s = .done

theorem Tracks.open {s : Field} {p : Parser} (hs : s ≠ .done) (hstate : p.state = s.state)
    (hc : p.parseComplete = false) : Tracks s p :=
  ⟨hstate, by simp [hc, hs]⟩

/-- On a byte that the strict reader takes the parser goes along with it. -/
theorem Tracks.step {s t : Field} {p q : Parser} {c : UInt8} (h : Tracks s p)
    (hc : p.parseComplete = false) (hnext : s.next c = some t) (hq : p.step c = .ok q) :
    Tracks t q := by
  cases s with
  | flags any =>
    have hs : p.state = .spFlags := h.state
    simp only [Parser.step, hs, stepFlags] at hq
    dsimp only [Field.next] at hnext
    split at hnext
    next hd =>
      cases hnext
      rw [if_neg (ne_space_of_digit hd).1, if_pos hd] at hq
      split at hq
      next => cases hq
      next => cases hq; exact .open (by simp) rfl hc
    next =>
      split at hnext
      next hsep =>
        cases hnext
        rw [if_pos hsep.1] at hq
        cases hq
        exact .open (by simp) rfl hc
      next => cases hnext
  | start =>
    have hs : p.state = .spExprTimeStart := h.state
    simp only [Parser.step, hs, stepExprTimeStart] at hq
    dsimp only [Field.next] at hnext
    split at hnext
    next hd =>
      cases hnext
      rw [if_neg (ne_space_of_digit hd).2.2, if_pos hd] at hq
      cases hq
      exact .open (by simp) rfl hc
    next =>
      split at hnext
      next hsign =>
        cases hnext
        rw [if_pos hsign] at hq
        cases hq
        exact .open (by simp) rfl hc
      next => cases hnext
  | time any =>
    have hs : p.state = .spExprTime := h.state
    simp only [Parser.step, hs, stepExprTime] at hq
    dsimp only [Field.next] at hnext
    split at hnext
    next hd =>
      cases hnext
      rw [if_neg (ne_space_of_digit hd).1, if_pos hd] at hq
      repeat' split at hq
      all_goals
        cases hq
        try exact .open (by simp) rfl hc
    next =>
      split at hnext
      next hsep =>
        cases hnext
        rw [if_pos hsep.1] at hq
        cases hq
        exact .open (by simp) rfl hc
      next => cases hnext
  | bytes any =>
    have hs : p.state = .spBytes := h.state
    simp only [Parser.step, hs, stepBytes] at hq
    dsimp only [Field.next] at hnext
    split at hnext
    next hd =>
      cases hnext
      rw [if_neg (ne_space_of_digit hd).2.1, if_pos hd] at hq
      split at hq
      next => cases hq
      next => cases hq; exact .open (by simp) rfl hc
    next =>
      split at hnext
      next hsep =>
        cases hnext
        rw [if_pos hsep.1] at hq
        cases hq
        exact .open (by simp) rfl hc
      next => cases hnext
  | line =>
    have hs : p.state = .sLF := h.state
    simp only [Parser.step, hs, stepLF] at hq
    dsimp only [Field.next] at hnext
    split at hnext
    next hlf =>
      cases hnext
      rw [if_pos hlf] at hq
      cases hq
      exact ⟨rfl, by simp⟩
    next => cases hnext
  | done => cases hnext

/-- A byte that the strict reader refuses is taken in every number field, and
refused where the line feed is due. -/
theorem Tracks.refused {s : Field} {p : Parser} {c : UInt8} (h : Tracks s p) (hdone : s ≠ .done)
    (hnext : s.next c = none) : (∃ q, p.step c = .ok q) ↔ s ≠ .line := by
  cases s with
  | flags any =>
    have hs : p.state = .spFlags := h.state
    refine iff_of_true ?_ (by simp)
    by_cases hspace : c = space
    · exact ⟨_, by simp only [Parser.step, hs, stepFlags, if_pos hspace]; rfl⟩
    · have hd : isDigit c = false := by simpa [Field.next, hspace] using hnext
      exact ⟨p, by simp [Parser.step, hs, stepFlags, hspace, hd]⟩
  | start =>
    have hs : p.state = .spExprTimeStart := h.state
    refine iff_of_true ?_ (by simp)
    by_cases hminus : c = minus
    · rw [hminus] at hnext
      exact absurd hnext (by decide)
    · have hd : isDigit c = false := by simpa [Field.next, hminus] using hnext
      exact ⟨p, by simp [Parser.step, hs, stepExprTimeStart, hminus, hd]⟩
  | time any =>
    have hs : p.state = .spExprTime := h.state
    refine iff_of_true ?_ (by simp)
    by_cases hspace : c = space
    · exact ⟨_, by simp only [Parser.step, hs, stepExprTime, if_pos hspace]; rfl⟩
    · have hd : isDigit c = false := by simpa [Field.next, hspace] using hnext
      exact ⟨p, by simp [Parser.step, hs, stepExprTime, hspace, hd]⟩
  | bytes any =>
    have hs : p.state = .spBytes := h.state
    refine iff_of_true ?_ (by simp)
    by_cases hcr : c = cr
    · exact ⟨_, by simp only [Parser.step, hs, stepBytes, if_pos hcr]; rfl⟩
    · have hd : isDigit c = false := by simpa [Field.next, hcr] using hnext
      exact ⟨p, by simp [Parser.step, hs, stepBytes, hcr, hd]⟩
  | line =>
    have hs : p.state = .sLF := h.state
    have hlf : c ≠ lf := by simpa [Field.next] using hnext
    simp [Parser.step, hs, stepLF, hlf]
  | done => exact absurd rfl hdone

theorem digits_notMem {ds : Bytes} (h : ∀ c ∈ ds, isDigit c = true) : space ∉ ds ∧ cr ∉ ds :=
  ⟨fun hmem => absurd (h _ hmem) (by decide), fun hmem => absurd (h _ hmem) (by decide)⟩

theorem exists_beginsTime {sign e : Bytes} (hsign : sign = [] ∨ sign = [minus])
    (he : ∀ c ∈ e, isDigit c = true) (hne : sign ++ e ≠ []) :
    ∃ c more, sign ++ e = c :: more ∧ beginsTime c = true ∧ space ∉ more := by
  rcases hsign with rfl | rfl
  · obtain ⟨d, ds, rfl⟩ := List.exists_cons_of_ne_nil hne
    have hd := he d List.mem_cons_self
    exact ⟨d, ds, rfl, by simp [beginsTime, hd],
      (digits_notMem fun c hc => he c (List.mem_cons_of_mem d hc)).1⟩
  · exact ⟨minus, e, rfl, rfl, (digits_notMem he).1⟩

theorem timeStart_flags {start f : Bytes} (hstart : PutStart start) (hf : IsNumber f) :
    TimeStart (start ++ (f ++ [space])) :=
  ⟨start, f, [], hstart, (digits_notMem hf.2).1, by simp, by simp⟩

/-- The parser reads a text that is well-formed so far, unless an overflow stops it. -/
theorem numbers_read (negative : Bool) {start u : Bytes} {s : Field} (hstart : PutStart start)
    (hrun : (Field.flags false).run u = some s) (hline : s ≠ .line) (hdone : s ≠ .done) :
    Overflows (start ++ u) ∨ ∃ p, (fresh negative).Reads (start ++ u) p ∧
      p.parseComplete = false ∧ Tracks s p := by
  have htext := Field.text_of_run hrun
  cases s with
  | flags any =>
    rcases flags_read negative hstart (digits_notMem htext.1).1 with
      ⟨hover, _⟩ | ⟨_, p, hread, hs, hc, _⟩
    · exact Or.inl hover
    · exact Or.inr ⟨p, hread, hc, .open hdone hs hc⟩
  | start =>
    obtain ⟨f, hf, rfl⟩ := htext
    rcases start_read negative (timeStart_flags hstart hf) with
      ⟨hover, _⟩ | ⟨p, hread, hs, hc, _⟩
    · exact Or.inl hover
    · exact Or.inr ⟨p, hread, hc, .open hdone hs hc⟩
  | time any =>
    obtain ⟨f, sign, e, hf, hsign, he, _, rfl⟩ := htext
    have hne : sign ++ e ≠ [] := by
      intro hnil
      rw [List.append_assoc, hnil, List.append_nil, Field.run_flags hf] at hrun
      cases hrun
    obtain ⟨c, more, hsplit, hc, hmore⟩ := exists_beginsTime hsign he hne
    have hread := time_read negative (timeStart_flags hstart hf) hc hmore
    rw [← hsplit, List.append_assoc, ← List.append_assoc (f ++ [space])] at hread
    rcases hread with ⟨hover, _⟩ | ⟨_, p, hread, hs, hopen, _⟩
    · exact Or.inl hover
    · exact Or.inr ⟨p, hread, hopen, .open hdone hs hopen⟩
  | bytes any =>
    obtain ⟨f, sign, e, b, hf, hsign, he, hb, _, rfl⟩ := htext
    obtain ⟨c, more, hsplit, hc, hmore⟩ := exists_beginsTime hsign he.2 (by simp [he.1])
    have hread := bytes_read negative (timeStart_flags hstart hf) hc hmore (digits_notMem hb).2
    have htext : start ++ (f ++ [space]) ++ (c :: more) ++ [space] ++ b =
        start ++ (f ++ [space] ++ sign ++ e ++ [space] ++ b) := by
      rw [← hsplit]
      simp only [List.append_assoc]
    rw [htext] at hread
    rcases hread with ⟨hover, _⟩ | ⟨_, p, hread, hs, hopen⟩
    · exact Or.inl hover
    · exact Or.inr ⟨p, hread, hopen, .open hdone hs hopen⟩
  | line => exact absurd rfl hline
  | done => exact absurd rfl hdone

end Parser

/-- A storing header is accepted with well-formed numbers only, and refused as
soon as they are not. -/
structure StrictNumbers (negative : Bool) (input : Bytes) : Prop where
  accepted : ∀ p n, (Parser.fresh negative).parse input = .returned p n →
    p.parseComplete = true → p.name ∈ putVerbs →
    ∃ h t, PutStart h ∧ NumbersText t ∧ input.take n = h ++ t
  refused : ∀ h u, PutStart h → h ++ u <+: input → Malformed u →
    ∃ p e k, (Parser.fresh negative).parse (h ++ u) = .threw p e k

/-- The byte that spoils the numbers of a storing header comes where the line feed
is due, or behind an overflow that is noticed. -/
def SpoilSeen (input : Bytes) : Prop :=
  ∀ start u c, PutStart start → start ++ u ++ [c] <+: input → (∃ w, NumbersText (u ++ w)) →
    Malformed (u ++ [c]) → u.getLast? = some cr ∨ Overflows (start ++ u)

theorem StrictNumbers.spoilSeen {negative : Bool} {input : Bytes}
    (h : StrictNumbers negative input) : SpoilSeen input := by
  rintro start u c hstart hpre ⟨w, hw⟩ hbad
  obtain ⟨hnone, hfront⟩ := (Field.malformed_iff _).mp hbad
  obtain ⟨s, hrun⟩ := Field.run_of_completion hw
  have hdone : s ≠ .done := fun he => hfront u (List.prefix_append u [c]) (he ▸ hrun)
  rw [Field.run_snoc, hrun, Option.bind_some] at hnone
  rw [← Field.line_iff_cr hrun, or_iff_not_imp_left]
  intro hline
  rcases Parser.numbers_read negative hstart hrun hline hdone with hover | ⟨p, hread, hc, htracks⟩
  · exact hover
  · -- the byte is taken, though the text is malformed with it
    obtain ⟨q, hstep⟩ := (htracks.refused hdone hnone).mpr hline
    rw [List.append_assoc] at hpre
    obtain ⟨r, e, k, hthrew⟩ := h.refused start (u ++ [c]) hstart hpre hbad
    have htaken := hread.trans (.single hc hstep)
    rw [List.append_assoc] at htaken
    exact absurd ⟨r, k, hthrew⟩ (Parser.Reads.not_throws htaken e)

namespace SpoilSeen

variable {negative : Bool} {input start u : Bytes} {p : Parser} {n : Nat}

theorem takes (h : SpoilSeen input) (hstart : PutStart start) {s : Field} {c : UInt8} {q : Parser}
    (hpre : start ++ u ++ [c] <+: input) (hrun : (Field.flags false).run u = some s)
    (hp : (Parser.fresh negative).parse (start ++ u) = .returned p n)
    (hc : p.parseComplete = false) (htracks : p.Tracks s) (hstep : p.step c = .ok q) :
    ∃ t, s.next c = some t := by
  have hdone : s ≠ .done := fun he => by simp [htracks.complete.mpr he] at hc
  cases hnext : s.next c with
  | some t => exact ⟨t, rfl⟩
  | none =>
    have hline := (htracks.refused hdone hnext).mp ⟨q, hstep⟩
    rcases h start u c hstart hpre (Field.completion_of_run hrun hdone)
      (Field.malformed_of_next hrun hdone hnext) with hcr | hover
    · exact absurd ((Field.line_iff_cr hrun).mpr hcr) hline
    · obtain ⟨e, r, k, hthrew⟩ := hover.throws negative
      exact absurd (hp.symm.trans hthrew) (by simp)

/-- Behind the start of a storing header the strict reader has read what the
parser has. -/
theorem tracks (h : SpoilSeen input) (hstart : PutStart start) (hpre : start ++ u <+: input)
    (hp : (Parser.fresh negative).parse (start ++ u) = .returned p n) :
    ∃ m s, n = start.length + m ∧ (Field.flags false).run (u.take m) = some s ∧ p.Tracks s := by
  obtain ⟨first, hread, hs, hc, _⟩ := Parser.reads_through_key negative hstart
  rw [Parser.parse, hread] at hp
  cases hscan : scan Parser.parseComplete Parser.step first u with
  | threw q e k => simp [hscan] at hp
  | returned q m =>
    rw [hscan, Result.later_returned] at hp
    cases hp
    have htrace := trace_of_returned
      (I := fun v q => ∃ s, (Field.flags false).run v = some s ∧ Parser.Tracks s q)
      ⟨.flags false, rfl, .open (by simp) hs hc⟩ ?_ hscan
    · obtain ⟨s, hrun, htracks⟩ := htrace
      exact ⟨m, s, rfl, hrun, htracks⟩
    · rintro v q c t ⟨s, hrun, htracks⟩ hv hq hqc hstep
      have hparse : (Parser.fresh negative).parse (start ++ v) =
          .returned q (start.length + v.length) := by
        rw [Parser.parse, hread, hq, Result.later_returned]
      have hfront : start ++ v ++ [c] <+: input := by
        rw [List.append_assoc]
        exact ((List.prefix_append_right_inj start).mpr hv).trans hpre
      obtain ⟨s', hnext⟩ := h.takes hstart hfront hrun hparse hqc htracks hstep
      refine ⟨s', ?_, htracks.step hqc hnext hstep⟩
      rw [Field.run_snoc, hrun]
      exact hnext

theorem accepted (h : SpoilSeen input)
    (hp : (Parser.fresh negative).parse input = .returned p n) (hc : p.parseComplete = true)
    (hname : p.name ∈ putVerbs) : ∃ h t, PutStart h ∧ NumbersText t ∧ input.take n = h ++ t := by
  have hstate := ((Parser.fresh_named negative).parse hp).complete hc
  obtain ⟨start, hstart, u, hu⟩ := (Parser.headed_parse hp).line hstate hname
  have hlen : start.length + u.length = n := by
    rw [← List.length_append, hu]
    exact List.length_take_of_le (consumed_le_length hp)
  have htaken : (Parser.fresh negative).parse (start ++ u) = .returned p n := by
    rw [hu]
    exact scan_take hp
  obtain ⟨m, s, hm, hrun, htracks⟩ := h.tracks hstart (hu ▸ List.take_prefix n input) htaken
  rw [htracks.complete.mp hc, List.take_of_length_le (by omega)] at hrun
  exact ⟨start, u, hstart, (Field.run_done_iff u).mp hrun, hu.symm⟩

theorem refused (h : SpoilSeen input) (hstart : PutStart start) (hpre : start ++ u <+: input)
    (hbad : Malformed u) :
    ∃ p e k, (Parser.fresh negative).parse (start ++ u) = .threw p e k := by
  obtain ⟨hnone, hfront⟩ := (Field.malformed_iff u).mp hbad
  cases hp : (Parser.fresh negative).parse (start ++ u) with
  | threw p e k => exact ⟨p, e, k, rfl⟩
  | returned p n =>
    obtain ⟨m, s, hm, hrun, htracks⟩ := h.tracks hstart hpre hp
    cases hc : p.parseComplete with
    | true =>
      rw [htracks.complete.mp hc] at hrun
      exact absurd hrun (hfront _ (List.take_prefix m u))
    | false =>
      have hall := consumed_eq_length hp hc
      rw [List.length_append] at hall
      rw [List.take_of_length_le (by omega), hnone] at hrun
      cases hrun

end SpoilSeen

/-- The number states skip what does not belong to them, and a separator ends a
field also when it has no digit. So the numbers of a storing header are checked
exactly when the first byte that spoils them is seen for another reason. -/
theorem malformed_numbers_refused (negative : Bool) (input : Bytes) :
    StrictNumbers negative input ↔ SpoilSeen input :=
  ⟨fun h => h.spoilSeen, fun h => ⟨fun _ _ => h.accepted, fun _ _ => h.refused⟩⟩

/-- A letter in the place of the flags passes. -/
theorem malformed_numbers_accepted :
    (Parser.fresh false).parse (text "set k x 0 1\r\n") =
      .returned ⟨.sLF, text "set", [text "k"], 0, 0, 1, false, text "k", true⟩ 13 ∧
    PutStart (text "set k ") ∧ Malformed (text "x") ∧
    ¬ StrictNumbers false (text "set k x 0 1\r\n") := by
  have hstart : PutStart (text "set k ") :=
    ⟨text "set", space, text "k", by decide, Or.inl rfl, by decide, by decide⟩
  have hbad : Malformed (text "x") :=
    Field.malformed_of_next (u := []) (s := .flags false) rfl (by decide) (by decide)
  refine ⟨by decide, hstart, hbad, fun h => ?_⟩
  obtain ⟨p, e, k, hthrew⟩ := h.refused (text "set k ") (text "x") hstart (by decide) hbad
  have htaken : (Parser.fresh false).parse (text "set k " ++ text "x") =
      .returned ⟨.spFlags, text "set", [text "k"], 0, 0, 0, false, text "k", false⟩ 7 := by decide
  exact absurd (htaken.symm.trans hthrew) (by simp)

end Afina
