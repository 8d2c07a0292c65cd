import Mathlib.Data.Nat.Find
import Afina.ParserFields
import Afina.ParserNames

namespace Afina

open Scan

/-- The text before the first end of line. -/
structure FirstLine (input u : Bytes) : Prop where
  ends : u ++ [cr, lf] <+: input
  first : ∀ v, v ++ [cr, lf] <+: input → u.length ≤ v.length

theorem exists_firstLine {input v : Bytes} (h : v ++ [cr, lf] <+: input) :
    ∃ u, FirstLine input u := by
  classical
  have hex : ∃ k, ∃ v : Bytes, v.length = k ∧ v ++ [cr, lf] <+: input := ⟨_, v, rfl, h⟩
  obtain ⟨u, hlen, hu⟩ := Nat.find_spec hex
  refine ⟨u, hu, fun w hw => ?_⟩
  rw [hlen]
  exact Nat.find_min' hex ⟨w, rfl, hw⟩

namespace Parser

/-- What is known of the text read so far, from the state in which the parser
waits for the line feed. -/
structure Line (t : Bytes) (p : Parser) : Prop where
  name : p.state = .sName → p.name = t
  waits : p.state = .sLF → p.parseComplete = false → (∃ v, t = v ++ [cr]) ∨ t = text "stats "
  done : p.parseComplete = true → (∃ v, t = v ++ [cr, lf]) ∨ t = text "stats \n"

theorem line_fresh (negative : Bool) : Line [] (fresh negative) :=
  ⟨fun _ => rfl, by simp [fresh], by simp [fresh]⟩

theorem Line.of_cr {t : Bytes} {q : Parser} (hs : q.state ≠ .sName)
    (hc : q.parseComplete = false) : Line (t ++ [cr]) q :=
  ⟨fun h => absurd h hs, fun _ _ => Or.inl ⟨t, rfl⟩, fun h => by simp [hc] at h⟩

theorem Line.inside {t : Bytes} {q : Parser} (hs : q.state ≠ .sName) (hl : q.state ≠ .sLF)
    (hc : q.parseComplete = false) : Line t q :=
  ⟨fun h => absurd h hs, fun h => absurd h hl, fun h => by simp [hc] at h⟩

theorem Line.stepName {t : Bytes} {p q : Parser} {c : UInt8} (h : Line t p) (hs : p.state = .sName)
    (hc : p.parseComplete = false) (hq : p.stepName c = .ok q) : Line (t ++ [c]) q := by
  have hname := h.name hs
  unfold Parser.stepName at hq
  split at hq
  next hsep =>
    split at hq
    next => cases hq; exact .inside (by simp) (by simp) hc
    next =>
      split at hq
      next => cases hq; exact .inside (by simp) (by simp) hc
      next =>
        split at hq
        next hstats =>
          cases hq
          rcases hsep with rfl | rfl
          · rw [← hname, hstats]
            exact ⟨by simp, fun _ _ => Or.inr (by decide), fun hd => by simp [hc] at hd⟩
          · exact .of_cr (by simp) hc
        next => cases hq
  next =>
    cases hq
    exact ⟨fun _ => by rw [hname], by simp [hs], fun hd => by simp [hc] at hd⟩

theorem Line.stepLF {t : Bytes} {p q : Parser} {c : UInt8} (h : Line t p) (hs : p.state = .sLF)
    (hc : p.parseComplete = false) (hq : p.stepLF c = .ok q) : Line (t ++ [c]) q := by
  unfold Parser.stepLF at hq
  split at hq
  next hlf =>
    cases hq
    refine ⟨by simp [hs], by simp, fun _ => ?_⟩
    rw [hlf]
    rcases h.waits hs hc with ⟨v, rfl⟩ | rfl
    · exact Or.inl ⟨v, by simp⟩
    · exact Or.inr (by decide)
  next => cases hq

theorem Line.step {t : Bytes} {p q : Parser} {c : UInt8} (h : Line t p)
    (hc : p.parseComplete = false) (hq : p.step c = .ok q) : Line (t ++ [c]) q := by
  cases hs : p.state <;> simp only [Parser.step, hs] at hq
  case sName => exact h.stepName hs hc hq
  case sLF => exact h.stepLF hs hc hq
  case sCR => cases hq
  case sgKey =>
    unfold stepGetKey at hq
    dsimp only at hq
    split at hq
    next hcr =>
      rw [if_neg (by simp)] at hq
      cases hq
      rw [hcr]
      exact .of_cr (by simp) hc
    next =>
      split at hq
      next => cases hq; exact .inside (by simp [hs]) (by simp [hs]) hc
      next => cases hq; exact .inside (by simp [hs]) (by simp [hs]) hc
  case spBytes =>
    unfold stepBytes at hq
    split at hq
    next hcr =>
      cases hq
      rw [hcr]
      exact .of_cr (by simp) hc
    next =>
      dsimp only at hq
      repeat' split at hq
      all_goals
        cases hq
        try exact .inside (by simp [hs]) (by simp [hs]) hc
  -- no other state leads to the end of the line
  all_goals
    simp only [stepPutKey, stepFlags, stepExprTimeStart, stepExprTime] at hq
    repeat' split at hq
    all_goals
      cases hq
      try exact .inside (by simp [hs]) (by simp [hs]) hc

/-- A complete header ends with the end of a line, but for one text. -/
theorem ends_line {negative : Bool} {p : Parser} {input : Bytes} {n : Nat}
    (h : (fresh negative).parse input = .returned p n) (hc : p.parseComplete = true) :
    (∃ v, input.take n = v ++ [cr, lf]) ∨ input.take n = text "stats \n" := by
  have hline := trace_of_returned (line_fresh negative)
    (fun _ _ _ _ hp _ _ hopen hstep => hp.step hopen hstep) h
  exact hline.done hc

/-- States in which the parser takes the end of a line for part of the header. -/
def Absorbs (p : Parser) : Prop :=
  p.state ∈ [.spKey, .spFlags, .spExprTimeStart, .spExprTime] ∨
    p.state = .sName ∧ p.name ∈ commandNames ∧ p.name ≠ text "stats"

instance (p : Parser) : Decidable p.Absorbs := inferInstanceAs (Decidable (_ ∨ _))

theorem reads_crlf {p q r : Parser} (hc : p.parseComplete = false) (hq : p.step cr = .ok q)
    (hqc : q.parseComplete = false) (hr : q.step lf = .ok r) : p.Reads [cr, lf] r :=
  Eats.trans (.single hc hq) (.single hqc hr)

/-- The flags and the expiry time skip whatever does not belong to them. -/
theorem step_skips {p : Parser} (hs : p.state ∈ [.spFlags, .spExprTimeStart, .spExprTime])
    {c : UInt8} (hc : c ≠ space ∧ c ≠ minus ∧ Decimal.isDigit c = false) : p.step c = .ok p := by
  obtain ⟨hspace, hminus, hdigit⟩ := hc
  simp only [List.mem_cons, List.not_mem_nil, or_false] at hs
  rcases hs with hs | hs | hs
  · simp [step, hs, stepFlags, hspace, hdigit]
  · simp [step, hs, stepExprTimeStart, hminus, hdigit]
  · simp [step, hs, stepExprTime, hspace, hdigit]

theorem Absorbs.reads_crlf {p : Parser} (h : p.Absorbs) (hc : p.parseComplete = false) :
    ∃ q, p.Reads [cr, lf] q ∧ q.parseComplete = false := by
  have hskip : p.state ∈ [.spFlags, .spExprTimeStart, .spExprTime] →
      ∃ q, p.Reads [cr, lf] q ∧ q.parseComplete = false := fun hs =>
    ⟨p, Parser.reads_crlf hc (step_skips hs (by decide)) hc (step_skips hs (by decide)), hc⟩
  rcases h with hs | ⟨hs, hname, hstats⟩
  · rw [List.mem_cons] at hs
    rcases hs with hs | hs
    · refine ⟨{ p with curKey := p.curKey ++ [cr] ++ [lf] },
        Parser.reads_crlf (q := { p with curKey := p.curKey ++ [cr] }) hc ?_ hc ?_, hc⟩
      · simp [step, hs, stepPutKey, show cr ≠ space by decide]
      · simp [step, hs, stepPutKey, show lf ≠ space by decide]
    · exact hskip hs
  · simp only [commandNames, List.mem_cons, List.not_mem_nil, or_false, hstats] at hname
    by_cases hput : p.name = text "set" ∨ p.name = text "add" ∨ p.name = text "append" ∨
        p.name = text "prepend"
    · refine ⟨{ p with state := .spKey, curKey := p.curKey ++ [lf] },
        Parser.reads_crlf (q := { p with state := .spKey }) hc ?_ hc ?_, hc⟩
      · simp [step, hs, stepName, hput]
      · simp [step, stepPutKey, show lf ≠ space by decide]
    · have hget : p.name = text "get" ∨ p.name = text "gets" := by
        simp only [not_or] at hput
        simpa [hput] using hname
      refine ⟨{ p with state := .sgKey, curKey := p.curKey ++ [lf] },
        Parser.reads_crlf (q := { p with state := .sgKey }) hc ?_ hc ?_, hc⟩
      · simp [step, hs, stepName, hput, hget]
      · simp [step, stepGetKey, show lf ≠ space by decide, show lf ≠ cr by decide]

theorem parse_crlf_of_sLF {p q : Parser} (hc : p.parseComplete = false) (hq : p.step cr = .ok q)
    (hs : q.state = .sLF) (hqc : q.parseComplete = false) (rest : Bytes) :
    ∃ q, p.parse (cr :: lf :: rest) = .returned q 2 ∧ q.parseComplete = true := by
  have hread := reads_crlf (r := { q with parseComplete := true }) hc hq hqc
    (by simp [step, hs, stepLF])
  exact ⟨_, hread.scan_complete rfl rest, rfl⟩

/-- Everywhere else the end of a line completes the header or is an error. -/
theorem parse_crlf {p : Parser} (h : ¬ p.Absorbs) (hc : p.parseComplete = false) (rest : Bytes) :
    (∃ e, p.parse (cr :: lf :: rest) = .threw p e 0) ∨
      ∃ q, p.parse (cr :: lf :: rest) = .returned q 2 ∧ q.parseComplete = true := by
  simp only [Absorbs, not_or, not_and] at h
  obtain ⟨hstate, hname⟩ := h
  cases hs : p.state with
  | spKey => simp [hs] at hstate
  | spFlags => simp [hs] at hstate
  | spExprTimeStart => simp [hs] at hstate
  | spExprTime => simp [hs] at hstate
  | sCR => exact Or.inl ⟨.unknownState, parse_threw hc (by simp [step, hs]) _⟩
  | sLF =>
    refine Or.inl ⟨.invalidChar cr, parse_threw hc ?_ _⟩
    simp [step, hs, stepLF, show cr ≠ lf by decide]
  | sgKey =>
    refine Or.inr (parse_crlf_of_sLF
      (q := { p with keys := p.keys ++ [p.curKey], curKey := [], state := .sLF }) hc ?_ rfl hc rest)
    simp [step, hs, stepGetKey]
  | spBytes =>
    refine Or.inr (parse_crlf_of_sLF (q := { p with state := .sLF }) hc ?_ rfl hc rest)
    simp [step, hs, stepBytes]
  | sName =>
    by_cases hstats : p.name = text "stats"
    · refine Or.inr (parse_crlf_of_sLF (q := { p with state := .sLF }) hc ?_ rfl hc rest)
      simp only [step, hs, stepName, hstats]
      rfl
    · have hother : p.name ∉ commandNames := fun hmem => hstats (by simpa using hname hs hmem)
      simp only [commandNames, List.mem_cons, List.not_mem_nil, or_false, not_or] at hother
      refine Or.inl ⟨.unknownCommandName, parse_threw hc ?_ _⟩
      simp [step, hs, stepName, hother]

theorem parse_stats (negative : Bool) (rest : Bytes) :
    ∃ p, (fresh negative).parse (text "stats \n" ++ rest) = .returned p 7 ∧
      p.parseComplete = true := by
  have hname : (fresh negative).Reads (text "stats")
      { fresh negative with name := text "stats" } :=
    reads_name rfl rfl rfl (by decide +kernel)
  have hsep : (fresh negative).Reads (text "stats" ++ [space])
      { fresh negative with name := text "stats", state := .sLF } := hname.trans (.single rfl rfl)
  exact ⟨_, (hsep.trans (reads_LF rfl rfl)).scan_complete rfl rest, rfl⟩

end Parser

/-- `Parse` stays within the first line: it completes at its end or throws before. -/
structure WithinLine (r : Result Parser ParseError) (input : Bytes) : Prop where
  complete : ∀ p n, r = .returned p n → p.parseComplete = true →
    ∃ u, FirstLine input u ∧ n = u.length + 2
  ends : ∀ u, FirstLine input u → (∃ p e k, r = .threw p e k ∧ k ≤ u.length) ∨
    ∃ p, r = .returned p (u.length + 2) ∧ p.parseComplete = true

namespace WithinLine

variable {negative : Bool} {input u : Bytes}

theorem not_absorbs (h : WithinLine ((Parser.fresh negative).parse input) input)
    (hu : FirstLine input u) {q : Parser} {n : Nat}
    (hq : (Parser.fresh negative).parse u = .returned q n) (hc : q.parseComplete = false) :
    ¬ q.Absorbs := by
  intro habs
  obtain ⟨q', hread, hc'⟩ := habs.reads_crlf hc
  obtain ⟨rest, hrest⟩ := hu.ends
  have hn := consumed_eq_length hq hc
  rw [hn] at hq
  have hparse : (Parser.fresh negative).parse input = (q'.parse rest).later (u.length + 2) := by
    rw [← hrest, List.append_assoc, Parser.parse, scan_resume hq hc, hread, Result.later_later]
    rfl
  rcases h.ends u hu with ⟨p, e, k, hthrew, hk⟩ | ⟨p, hret, hp⟩
  · rw [hparse] at hthrew
    cases hr : q'.parse rest with
    | returned t m => simp [hr] at hthrew
    | threw t e' m =>
      simp only [hr, Result.later_threw, Result.threw.injEq] at hthrew
      omega
  · rw [hparse] at hret
    have hnone : q'.parse rest = .returned p 0 := Result.returned_of_later hret
    cases rest with
    | nil =>
      cases hnone
      simp [hc'] at hp
    | cons c rest => exact absurd (consumed_pos (by simp) hc' hnone) (by omega)

theorem not_stats (h : WithinLine ((Parser.fresh negative).parse input) input) :
    ¬ text "stats \n" <+: input := by
  rintro ⟨rest, rfl⟩
  obtain ⟨p, hret, hp⟩ := Parser.parse_stats negative rest
  obtain ⟨u, hu, hlen⟩ := h.complete p 7 hret hp
  have hlength : (u ++ [cr, lf]).length ≤ (text "stats \n").length := by
    have hseven : (text "stats \n").length = 7 := by decide
    rw [List.length_append, hseven]
    simp only [List.length_cons, List.length_nil]
    omega
  have hfront := List.prefix_of_prefix_length_le hu.ends (List.prefix_append _ rest) hlength
  have hmem : cr ∈ text "stats \n" := hfront.subset (by simp)
  exact absurd hmem (by decide)

theorem ends_of (hline : ∀ q n, (Parser.fresh negative).parse u = .returned q n →
      q.parseComplete = false → ¬ q.Absorbs)
    (hstats : ¬ text "stats \n" <+: input) (hu : FirstLine input u) :
    (∃ p e k, (Parser.fresh negative).parse input = .threw p e k ∧ k ≤ u.length) ∨
      ∃ p, (Parser.fresh negative).parse input = .returned p (u.length + 2) ∧
        p.parseComplete = true := by
  obtain ⟨rest, hrest⟩ := hu.ends
  rw [List.append_assoc] at hrest
  cases hq : (Parser.fresh negative).parse u with
  | threw q e k =>
    refine Or.inl ⟨q, e, k, ?_, (threw_lt_length hq).le⟩
    rw [← hrest, Parser.parse, scan_append]
    rw [Parser.parse] at hq
    rw [hq]
  | returned q n =>
    cases hc : q.parseComplete with
    | true =>
      -- a header that is over before the line ends with a line of its own
      have hpre : u.take n <+: input := (List.take_prefix n u).trans ⟨_, hrest⟩
      have hshort : n ≤ u.length := consumed_le_length hq
      rcases Parser.ends_line hq hc with ⟨v, hv⟩ | hv
      · have hfirst := hu.first v (hv ▸ hpre)
        have hlen := congrArg List.length hv
        simp only [List.length_take, List.length_append, List.length_cons, List.length_nil] at hlen
        omega
      · exact absurd (hv ▸ hpre) hstats
    | false =>
      have hlen := consumed_eq_length hq hc
      rw [hlen] at hq
      have hparse : (Parser.fresh negative).parse input =
          (q.parse (cr :: lf :: rest)).later u.length := by
        rw [← hrest]
        exact scan_resume hq hc _
      rcases Parser.parse_crlf (hline q _ hq hc) hc rest with ⟨e, hthrew⟩ | ⟨p, hret, hp⟩
      · exact Or.inl ⟨q, e, u.length, by rw [hparse, hthrew]; rfl, le_rfl⟩
      · exact Or.inr ⟨p, by rw [hparse, hret]; rfl, hp⟩

end WithinLine

/-- The first line is kept unless its end comes where the parser takes it for
part of the header, or the line is the one of `stats` with a space at its end. -/
theorem withinLine_iff (negative : Bool) (chunks : List Bytes) :
    WithinLine ((Parser.fresh negative).parseAll chunks) chunks.flatten ↔
      (∀ u q n, FirstLine chunks.flatten u → (Parser.fresh negative).parse u = .returned q n →
        q.parseComplete = false → ¬ q.Absorbs) ∧
      ¬ text "stats \n" <+: chunks.flatten := by
  rw [Parser.parseAll, feed_eq_scan]
  generalize chunks.flatten = input
  constructor
  · intro h
    exact ⟨fun u q n hu hq hc => h.not_absorbs hu hq hc, h.not_stats⟩
  · rintro ⟨hline, hstats⟩
    refine ⟨fun p n hret hp => ?_, fun u hu => ?_⟩
    · rcases Parser.ends_line hret hp with ⟨v, hv⟩ | hv
      · obtain ⟨u, hu⟩ := exists_firstLine (hv ▸ List.take_prefix n input)
        refine ⟨u, hu, ?_⟩
        rcases WithinLine.ends_of (hline u · · hu) hstats hu with ⟨q, e, k, hthrew, _⟩ | ⟨q, hq, _⟩
        · exact absurd (hret.symm.trans hthrew) (by simp)
        · have heq := hret.symm.trans hq
          simp only [Result.returned.injEq] at heq
          exact heq.2
      · exact absurd (hv ▸ List.take_prefix n input) hstats
    · exact WithinLine.ends_of (hline u · · hu) hstats hu

end Afina
