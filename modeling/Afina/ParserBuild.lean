import Afina.ParserNames

namespace Afina

open Scan

namespace Parser

/-- The parser after a call of `Parse` on each of the chunks, if none throws. -/
def fed (p : Parser) : List Bytes → Option Parser
  | [] => some p
  | chunk :: chunks =>
    match p.parse chunk with
    | .returned q _ => q.fed chunks
    | .threw _ _ _ => none

theorem fed_cons {p q : Parser} {chunk : Bytes} {chunks : List Bytes}
    (h : p.fed (chunk :: chunks) = some q) :
    ∃ r n, p.parse chunk = .returned r n ∧ r.fed chunks = some q := by
  rw [fed] at h
  cases hparse : p.parse chunk with
  | threw r e n => simp [hparse] at h
  | returned r n =>
    rw [hparse] at h
    exact ⟨r, n, rfl, h⟩

theorem fed_invariant {I : Parser → Prop}
    (keep : ∀ p input q n, I p → p.parse input = .returned q n → I q) {p q : Parser}
    {chunks : List Bytes} (hp : I p) (h : p.fed chunks = some q) : I q := by
  induction chunks generalizing p with
  | nil =>
    cases h
    exact hp
  | cons chunk chunks ih =>
    obtain ⟨r, n, hparse, hrest⟩ := fed_cons h
    exact ih (keep p chunk r n hp hparse) hrest

/-- What is promised of `Build`: a command or a thrown error for a complete
header, depending on its name, and the null pointer before that. -/
structure BuildMatches (p : Parser) : Prop where
  command : p.parseComplete = true →
    p.name ∈ [text "set", text "add", text "append", text "get", text "stats"] →
    ∀ b, ∃ cmd n, p.build b = some (.ok (some cmd), n)
  throws : p.parseComplete = true →
    ∀ b, (∃ what n, p.build b = some (.error what, n)) ↔
      p.name ∈ [text "prepend", text "gets"]
  null : p.parseComplete = false → ∀ b, p.build b = some (.ok none, b)

theorem Named.build_command {p : Parser} (h : p.Named) (hk : p.Keyed)
    (hc : p.parseComplete = true) (hname : p.name ∉ [text "prepend", text "gets"]) (b : UInt32) :
    ∃ cmd n, p.build b = some (.ok (some cmd), n) := by
  obtain ⟨⟨r, n⟩, hb⟩ := Option.isSome_iff_exists.mp (hk.build_isSome b)
  cases r with
  | error what =>
    have hthrown := (h.build_error_iff hc b).mp ⟨what, n, hb⟩
    exact absurd (by simpa [or_comm] using hthrown) hname
  | ok cmd =>
    obtain ⟨c, rfl⟩ := Option.isSome_iff_exists.mp (build_ok_isSome (h.complete hc) hb)
    exact ⟨c, n, hb⟩

theorem buildMatches_iff {p : Parser} (h : p.Named) (hk : p.Keyed) :
    p.BuildMatches ↔ ¬ (p.state = .sLF ∧ p.parseComplete = false) := by
  constructor
  · rintro hm ⟨hs, hc⟩
    have hsome := build_ok_isSome hs (hm.null hc 0)
    simp at hsome
  · intro hline
    refine ⟨fun hc hname b => ?_, fun hc b => ?_, fun hc b => ?_⟩
    · refine h.build_command hk hc (fun hother => ?_) b
      simp only [List.mem_cons, List.not_mem_nil, or_false] at hother
      rcases hother with hn | hn
      · exact absurd hname (by rw [hn]; decide)
      · exact absurd hname (by rw [hn]; decide)
    · rw [h.build_error_iff hc b]
      simp [or_comm]
    · have hs : p.state ≠ .sLF := fun hs => hline ⟨hs, hc⟩
      simp [build, hs]

end Parser

/-- `Build` keeps its contract exactly when it is not called between the end of
the line's text and its line feed. -/
theorem build_matches_completion {start p : Parser} {chunks : List Bytes}
    (hstart : (∃ negative, start = Parser.fresh negative) ∨ ∃ old : Parser, start = old.reset)
    (hfed : start.fed chunks = some p) :
    p.BuildMatches ↔ ¬ (p.state = .sLF ∧ p.parseComplete = false) := by
  have hfresh : ∃ negative, start = Parser.fresh negative := by
    rcases hstart with h | ⟨old, h⟩
    · exact h
    · exact ⟨old.negative, h⟩
  obtain ⟨negative, rfl⟩ := hfresh
  have hnamed := Parser.fed_invariant (fun _ _ _ _ h hparse => Parser.Named.parse h hparse)
    (Parser.fresh_named negative) hfed
  have hkeyed := Parser.fed_invariant (fun _ _ _ _ h hparse => Parser.Keyed.parse h hparse)
    (Parser.fresh_keyed negative) hfed
  exact Parser.buildMatches_iff hnamed hkeyed

theorem build_matches_completion_get :
    ∃ p, (Parser.fresh true).fed [text "get f", text "oo\r\n"] = some p ∧
      (p.BuildMatches ↔ ¬ (p.state = .sLF ∧ p.parseComplete = false)) := by
  have hfed : (Parser.fresh true).fed [text "get f", text "oo\r\n"] =
      some ⟨.sLF, text "get", [text "foo"], 0, 0, 0, true, [], true⟩ := by decide
  exact ⟨_, hfed, build_matches_completion (Or.inl ⟨true, rfl⟩) hfed⟩

/-- Between CR and LF the command is already handed out. -/
theorem build_before_LF : ∃ p, (Parser.fresh false).fed [text "get foo\r"] = some p ∧
    p.parseComplete = false ∧ p.build 0 = some (.ok (some (.get [text "foo"])), 0) ∧
    ¬ p.BuildMatches := by
  refine ⟨⟨.sLF, text "get", [text "foo"], 0, 0, 0, false, [], false⟩, by decide, rfl, rfl, ?_⟩
  intro hm
  exact absurd (hm.null rfl 0) (by decide)

end Afina
