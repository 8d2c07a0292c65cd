import Afina.ParserCore

namespace Afina

open Scan

namespace Parser

/-- Two parsers that differ in the sign flag at most, and not even there while
they read the expiry time, where the flag is looked at. -/
structure SameButSign (p q : Parser) : Prop where
  fields : q = { p with negative := q.negative }
  sign : p.state = .spExprTimeStart ∨ p.state = .spExprTime → q.negative = p.negative

theorem SameButSign.refl (p : Parser) : p.SameButSign p := ⟨rfl, fun _ => rfl⟩

theorem stepAlike_refl (r : Except ParseError Parser) : StepAlike SameButSign r r := by
  cases r with
  | ok p => exact .ok (.refl p)
  | error e => exact .error e

/-- Outside the expiry time the flag is only ever written. -/
theorem stepAlike_elsewhere {p : Parser} (n : Bool)
    (hstate : ¬ (p.state = .spExprTimeStart ∨ p.state = .spExprTime)) (c : UInt8) :
    StepAlike SameButSign (p.step c) (step { p with negative := n } c) := by
  cases hs : p.state <;> simp only [step, hs]
  case spExprTimeStart => exact absurd (Or.inl hs) hstate
  case spExprTime => exact absurd (Or.inr hs) hstate
  case sCR => exact .error _
  case spFlags =>
    unfold stepFlags
    split
    next => exact .ok (.refl _)
    next =>
      split
      next =>
        dsimp only
        split
        next => exact .error _
        next => exact .ok ⟨by simp [hs], by simp [hs]⟩
      next => exact .ok ⟨by simp [hs], by simp [hs]⟩
  all_goals
    simp only [stepName, stepPutKey, stepGetKey, stepBytes, stepLF]
    repeat' split
    all_goals first
      | exact .error _
      | exact .ok ⟨by simp [hs], by simp [hs]⟩

theorem SameButSign.step {p q : Parser} (h : p.SameButSign q) (c : UInt8) :
    StepAlike SameButSign (p.step c) (q.step c) := by
  by_cases hstate : p.state = .spExprTimeStart ∨ p.state = .spExprTime
  · have hsame : q = p := by
      rw [h.fields, h.sign hstate]
    rw [hsame]
    exact stepAlike_refl _
  · rw [h.fields]
    exact stepAlike_elsewhere _ hstate c

theorem SameButSign.parse {p q : Parser} (h : p.SameButSign q) (input : Bytes) :
    (p.parse input).Alike SameButSign (q.parse input) :=
  scan_alike (fun p q h => by rw [h.fields]) (fun p q c h => h.step c) h input

theorem SameButSign.build {p q : Parser} (h : p.SameButSign q) : p.build = q.build := by
  rw [h.fields]
  rfl

/-- What a caller of `Parse` is told: its value and `parsed`, or the error and
the byte at which it is thrown. -/
def outcome : Result Parser ParseError → Except (ParseError × Nat) (Bool × Nat)
  | .returned p n => .ok (p.parseComplete, n)
  | .threw _ e n => .error (e, n)

/-- The parser after a call of `Parse` on each of the chunks, whether they
return or throw. -/
def after (p : Parser) (chunks : List Bytes) : Parser :=
  chunks.foldl (fun p chunk => (p.parse chunk).state) p

/-- What each call of `Parse` tells, with what `Build` makes of the parser that
it leaves. -/
def calls (p : Parser) : List Bytes → List (Except (ParseError × Nat) (Bool × Nat) ×
    (UInt32 → Option (Except Bytes (Option Command) × UInt32)))
  | [] => []
  | chunk :: chunks =>
    (outcome (p.parse chunk), (p.parse chunk).state.build) :: calls (p.parse chunk).state chunks

theorem SameButSign.calls {p q : Parser} (h : p.SameButSign q) (chunks : List Bytes) :
    p.calls chunks = q.calls chunks := by
  induction chunks generalizing p q with
  | nil => rfl
  | cons chunk chunks ih =>
    have hparse := h.parse chunk
    simp only [Parser.calls]
    generalize p.parse chunk = r at hparse ⊢
    generalize q.parse chunk = r' at hparse ⊢
    cases hparse with
    | @returned p' q' hnext n =>
      have hflag : p'.parseComplete = q'.parseComplete := by rw [hnext.fields]
      simp only [outcome, Result.state, hflag, hnext.build, ih hnext]
    | threw hnext e n => simp only [outcome, Result.state, hnext.build, ih hnext]

end Parser

/-- After any calls of `Parse`, whichever way they end, `Reset` leaves a parser
that no later call of `Parse` or `Build` tells from a new one, whatever sign flag
the new one starts with. -/
theorem reset_forgets (negative negative' : Bool) (history chunks : List Bytes) :
    ((Parser.fresh negative).after history).reset.calls chunks =
      (Parser.fresh negative').calls chunks := by
  have hsame : ((Parser.fresh negative).after history).reset.SameButSign
      (Parser.fresh negative') := ⟨rfl, by simp [Parser.reset, Parser.fresh]⟩
  exact hsame.calls chunks

example : ((Parser.fresh false).after [text "set k 0 -", text "5 0\r"]).reset =
    Parser.fresh true := by decide

end Afina
