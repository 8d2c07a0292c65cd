import Afina.ParserLines
import Afina.ParserStrict

namespace Afina

open Scan Decimal

/-- A storing header that ends inside its key, its flags or its expiry time, under
the name of the state that reads the field. -/
inductive EndsIn : ParserState → Bytes → Prop
  | key {verb key : Bytes} {sep : UInt8} (hverb : verb ∈ putVerbs) (hsep : sep = space ∨ sep = cr)
      (hkey : space ∉ key) : EndsIn .spKey (verb ++ [sep] ++ key)
  | flags {start f : Bytes} (hstart : PutStart start) (hf : space ∉ f) :
      EndsIn .spFlags (start ++ f)
  | start {v : Bytes} (hstart : TimeStart v) : EndsIn .spExprTimeStart v
  | time {start more : Bytes} {c : UInt8} (hstart : TimeStart start) (hc : beginsTime c = true)
      (hmore : space ∉ more) : EndsIn .spExprTime (start ++ (c :: more))

/-- The lines that are a bare name or a storing header without `<bytes>`. -/
def StopsShort (u : Bytes) : Prop :=
  (u ∈ commandNames ∧ u ≠ text "stats") ∨ ∃ field, EndsIn field u

namespace EndsIn

theorem absorbed {field : ParserState} {u : Bytes} (h : EndsIn field u) :
    field ∈ [.spKey, .spFlags, .spExprTimeStart, .spExprTime] := by
  cases h <;> simp

theorem flags_snoc {v : Bytes} (h : EndsIn .spFlags v) {c : UInt8} (hc : c ≠ space) :
    EndsIn .spFlags (v ++ [c]) := by
  cases h with
  | flags hstart hf =>
    rw [List.append_assoc]
    exact .flags hstart (by simp [hf, Ne.symm hc])

theorem flags_space {v : Bytes} (h : EndsIn .spFlags v) :
    EndsIn .spExprTimeStart (v ++ [space]) := by
  cases h with
  | @flags start f hstart hf => exact .start ⟨start, f, [], hstart, hf, by simp, by simp⟩

theorem start_snoc {v : Bytes} (h : EndsIn .spExprTimeStart v) {c : UInt8}
    (hc : beginsTime c = false) : EndsIn .spExprTimeStart (v ++ [c]) := by
  cases h with
  | start hstart =>
    obtain ⟨start, f, skipped, hput, hf, hskipped, rfl⟩ := hstart
    refine .start ⟨start, f, skipped ++ [c], hput, hf, fun d hd => ?_, by simp⟩
    rcases List.mem_append.mp hd with hd | hd
    · exact hskipped d hd
    · rw [List.mem_singleton.mp hd]
      exact hc

theorem start_begins {v : Bytes} (h : EndsIn .spExprTimeStart v) {c : UInt8}
    (hc : beginsTime c = true) : EndsIn .spExprTime (v ++ [c]) := by
  cases h with
  | start hstart => exact .time hstart hc List.not_mem_nil

theorem time_snoc {v : Bytes} (h : EndsIn .spExprTime v) {c : UInt8} (hc : c ≠ space) :
    EndsIn .spExprTime (v ++ [c]) := by
  cases h with
  | time hstart hfirst hmore =>
    rw [List.append_assoc]
    exact .time hstart hfirst (by simp [hmore, Ne.symm hc])

theorem read {field : ParserState} {u : Bytes} (h : EndsIn field u) (negative : Bool) :
    Overflows u ∨ ∃ p, (Parser.fresh negative).Reads u p ∧ p.parseComplete = false ∧
      p.state = field := by
  cases h with
  | key hverb hsep hkey =>
    have hread := (Parser.reads_verb negative hverb hsep).trans
      (Parser.reads_keyText rfl rfl rfl hkey)
    exact Or.inr ⟨_, hread, rfl, rfl⟩
  | flags hstart hf =>
    rcases Parser.flags_read negative hstart hf with ⟨hover, _⟩ | ⟨_, p, hread, hs, hc, _⟩
    · exact Or.inl hover
    · exact Or.inr ⟨p, hread, hc, hs⟩
  | start hstart =>
    rcases Parser.start_read negative hstart with ⟨hover, _⟩ | ⟨p, hread, hs, hc, _⟩
    · exact Or.inl hover
    · exact Or.inr ⟨p, hread, hc, hs⟩
  | time hstart hfirst hmore =>
    rcases Parser.time_read negative hstart hfirst hmore with
      ⟨hover, _⟩ | ⟨_, p, hread, hs, hc, _⟩
    · exact Or.inl hover
    · exact Or.inr ⟨p, hread, hc, hs⟩

end EndsIn

/-- A line that stops short overflows, or the parser is where it takes the end of
the line for part of the header. -/
theorem StopsShort.read {u : Bytes} (h : StopsShort u) (negative : Bool) :
    Overflows u ∨
      ∃ p, (Parser.fresh negative).Reads u p ∧ p.parseComplete = false ∧ p.Absorbs := by
  rcases h with ⟨known, other⟩ | ⟨field, hends⟩
  · have hread : (Parser.fresh negative).Reads u { Parser.fresh negative with name := u } :=
      Parser.reads_name rfl rfl rfl (Parser.commandNames_chars known)
    exact Or.inr ⟨_, hread, rfl, Or.inr ⟨rfl, known, other⟩⟩
  · rcases hends.read negative with hover | ⟨p, hread, hc, hs⟩
    · exact Or.inl hover
    · exact Or.inr ⟨p, hread, hc, Or.inl (hs ▸ hends.absorbed)⟩

namespace Parser

/-- What has been read when the parser is inside the flags or the expiry time. -/
structure Stops (v : Bytes) (p : Parser) : Prop where
  headed : Headed v p
  ends : p.state ∈ [.spFlags, .spExprTimeStart, .spExprTime] → EndsIn p.state v

theorem Stops.of_ends {v : Bytes} {p : Parser} {field : ParserState} (h : Headed v p)
    (hs : p.state = field) (hends : EndsIn field v) : Stops v p :=
  ⟨h, fun _ => hs ▸ hends⟩

theorem Stops.elsewhere {v : Bytes} {p : Parser} (h : Headed v p)
    (hs : p.state ∉ [.spFlags, .spExprTimeStart, .spExprTime]) : Stops v p :=
  ⟨h, fun he => absurd he hs⟩

theorem stops_fresh (negative : Bool) : Stops [] (fresh negative) :=
  .elsewhere (headed_fresh negative) (by simp [fresh])

theorem Stops.step {v : Bytes} {p q : Parser} {c : UInt8} (h : Stops v p)
    (hq : p.step c = .ok q) : Stops (v ++ [c]) q := by
  have hheaded := h.headed.step hq
  have hends := h.ends
  cases hs : p.state <;> simp only [Parser.step, hs] at hq hends
  case sCR => cases hq
  case spKey =>
    obtain ⟨hname, sep, hsep, hkey, hv⟩ := h.headed.key hs
    unfold stepPutKey at hq
    split at hq
    next hspace =>
      cases hq
      have hstart : PutStart (v ++ [c]) := ⟨p.name, sep, p.curKey, hname, hsep, hkey, by
        simp [hv, hspace]⟩
      exact .of_ends hheaded rfl (by simpa using EndsIn.flags hstart List.not_mem_nil)
    next => cases hq; exact .elsewhere hheaded (by simp [hs])
  case spFlags =>
    have hflags := hends (by simp)
    unfold stepFlags at hq
    split at hq
    next hspace =>
      cases hq
      exact .of_ends hheaded rfl (hspace ▸ hflags.flags_space)
    next hspace =>
      have hstay : q.state = .spFlags := by
        dsimp only at hq
        repeat' split at hq
        all_goals
          cases hq
          try exact hs
      exact .of_ends hheaded hstay (hflags.flags_snoc hspace)
  case spExprTimeStart =>
    have hstart := hends (by simp)
    unfold stepExprTimeStart at hq
    split at hq
    next hminus =>
      cases hq
      exact .of_ends hheaded rfl (hstart.start_begins (by simp [beginsTime, hminus]))
    next hminus =>
      split at hq
      next hd =>
        cases hq
        exact .of_ends hheaded rfl (hstart.start_begins (by simp [beginsTime, hd]))
      next hd =>
        cases hq
        exact .of_ends hheaded hs (hstart.start_snoc (by simp [beginsTime, hminus, hd]))
  case spExprTime =>
    have htime := hends (by simp)
    unfold stepExprTime at hq
    split at hq
    next => cases hq; exact .elsewhere hheaded (by simp)
    next hspace =>
      have hstay : q.state = .spExprTime := by
        dsimp only at hq
        repeat' split at hq
        all_goals
          cases hq
          try exact hs
      exact .of_ends hheaded hstay (htime.time_snoc hspace)
  -- no other state leads to the flags or the expiry time
  all_goals
    simp only [stepName, stepGetKey, stepBytes, stepLF] at hq
    repeat' split at hq
    all_goals
      cases hq
      try exact .elsewhere hheaded (by simp [hs])

theorem Absorbs.stopsShort {negative : Bool} {u : Bytes} {p : Parser} (h : p.Absorbs)
    (hp : (fresh negative).parse u = .returned p u.length) : StopsShort u := by
  have hstops : Stops (u.take u.length) p :=
    trace_of_returned (stops_fresh negative) (fun _ _ _ _ hp _ _ _ hstep => hp.step hstep) hp
  rw [List.take_length] at hstops
  rcases h with hs | ⟨hs, known, other⟩
  · refine Or.inr ⟨p.state, ?_⟩
    rcases List.mem_cons.mp hs with hkey | hs
    · obtain ⟨hname, sep, hsep, hkeyText, hv⟩ := hstops.headed.key hkey
      rw [hkey, hv]
      exact .key hname hsep hkeyText
    · exact hstops.ends hs
  · have hname := (hstops.headed.name hs).1
    exact Or.inl ⟨hname ▸ known, hname ▸ other⟩

/-- Where the parser is at the end of the first line, said by its text alone. -/
theorem absorbs_iff (negative : Bool) (u : Bytes) :
    (∀ p n, (fresh negative).parse u = .returned p n → p.parseComplete = false → ¬ p.Absorbs) ↔
      (StopsShort u → Overflows u) := by
  constructor
  · intro h hshort
    rcases hshort.read negative with hover | ⟨p, hread, hc, habs⟩
    · exact hover
    · have hp := hread []
      rw [List.append_nil] at hp
      exact absurd habs (h p _ hp hc)
  · intro h p n hp hc habs
    have hn := consumed_eq_length hp hc
    rw [hn] at hp
    obtain ⟨e, q, k, hthrew⟩ := (h (habs.stopsShort hp)).throws negative
    exact absurd (hp.symm.trans hthrew) (by simp)

end Parser

/-- `Parse` stays within the first line unless the line stops short, without an
overflow that is noticed before its end, or is the one of `stats` with a space and
a bare line feed. -/
theorem header_within_line (negative : Bool) (chunks : List Bytes) :
    WithinLine ((Parser.fresh negative).parseAll chunks) chunks.flatten ↔
      (∀ u, FirstLine chunks.flatten u → StopsShort u → Overflows u) ∧
      ¬ text "stats \n" <+: chunks.flatten := by
  rw [withinLine_iff]
  refine and_congr_left fun _ => ?_
  constructor
  · intro h u hu
    exact (Parser.absorbs_iff negative u).mp fun p n => h u p n hu
  · intro h u p n hu
    exact (Parser.absorbs_iff negative u).mpr (h u hu) p n

/-- A `set` without a key takes the one of the next line. -/
theorem header_spans_lines :
    (Parser.fresh false).parseAll [text "set\r", text "\nk 0 0 1\r\n"] =
      .returned ⟨.sLF, text "set", [text "\nk"], 0, 0, 1, false, text "\nk", true⟩ 14 ∧
    FirstLine (text "set\r\nk 0 0 1\r\n") (text "set") ∧
    ¬ WithinLine ((Parser.fresh false).parseAll [text "set\r", text "\nk 0 0 1\r\n"])
      (text "set\r\nk 0 0 1\r\n") := by
  have hparse : (Parser.fresh false).parseAll [text "set\r", text "\nk 0 0 1\r\n"] =
      .returned ⟨.sLF, text "set", [text "\nk"], 0, 0, 1, false, text "\nk", true⟩ 14 := by decide
  have hfirst : FirstLine (text "set\r\nk 0 0 1\r\n") (text "set") := by
    refine ⟨by decide, ?_⟩
    rintro v ⟨rest, hv⟩
    have hcr : (text "set\r\nk 0 0 1\r\n")[v.length]? = some cr := by simp [← hv]
    by_contra hshort
    have hthree : ∀ k < 3, (text "set\r\nk 0 0 1\r\n")[k]? ≠ some cr := by decide
    exact hthree v.length (Nat.lt_of_not_le hshort) hcr
  refine ⟨hparse, hfirst, fun h => ?_⟩
  rcases h.ends _ hfirst with ⟨p, e, k, hthrew, _⟩ | ⟨p, hret, _⟩
  · exact absurd (hparse.symm.trans hthrew) (by simp)
  · have hlen := hparse.symm.trans hret
    simp only [Result.returned.injEq] at hlen
    exact absurd hlen.2 (by decide)

end Afina
