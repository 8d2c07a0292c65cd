import Afina.HandlerMoves
import Afina.ParserNames

namespace Afina

open Scan

namespace Parser

theorem parse_of_parseChars {p : Parser} {memory : Bytes} {size : Nat}
    {r : Result Parser ParseError} (h : p.parseChars memory size = some r) :
    p.parse (memory.take size) = r := by
  unfold parseChars at h
  dsimp only at h
  split at h
  next => exact Option.some.inj h
  next =>
    split at h
    next => exact Option.some.inj h
    next =>
      split at h
      next => exact Option.some.inj h
      next => cases h

theorem parseChars_incomplete {p q : Parser} {memory : Bytes} {size n : Nat}
    (h : p.parseChars memory size = some (.returned q n)) (hq : q.parseComplete = false) :
    n = size := by
  have hparse := parse_of_parseChars h
  have hlen := consumed_eq_length hparse hq
  rw [List.length_take] at hlen
  unfold parseChars at h
  rw [hparse] at h
  dsimp only at h
  split at h
  next => omega
  next => simp [hq] at h

end Parser

namespace Handler

variable {server : Server} {backend : Backend}

/-- The name in the header that `Parse` completes after a read of this data. -/
def completes (h : Handler) (data : Bytes) : Option Bytes :=
  match h.parses data with
  | some (.returned p _) => if p.parseComplete then some p.name else none
  | _ => none

/-- A read that does not complete the header of a `gets` or of a `prepend`. -/
def Supported (h : Handler) : Input → Prop
  | .read data => data.length ≤ bufSize → h.phase = .outer →
    h.completes data ≠ some (text "gets") ∧ h.completes data ≠ some (text "prepend")
  | _ => True

instance (h : Handler) (i : Input) : Decidable (h.Supported i) :=
  match i with
  | .read data => inferInstanceAs (Decidable (data.length ≤ bufSize → h.phase = .outer →
    h.completes data ≠ some (text "gets") ∧ h.completes data ≠ some (text "prepend")))
  | .readFailed => inferInstanceAs (Decidable True)
  | .stopped => inferInstanceAs (Decidable True)

/-- No exception has left the handler, and if it has returned it has closed the
socket and removed its thread where that is its task. -/
def Contained (server : Server) (h : Handler) : Prop :=
  (∀ what, h.phase ≠ .threw what) ∧ (h.phase = .returned → server.epilogue <:+ h.log)

/-- While a handler reads, its parser knows the name and is not done. -/
structure Guarded (server : Server) (h : Handler) : Prop where
  parser : h.phase.ended = false → h.parser.Named ∧ h.parser.parseComplete = false
  returned : h.phase = .returned → server.epilogue <:+ h.log

theorem fresh_guarded (server : Server) (negative : Bool) : (fresh negative).Guarded server :=
  ⟨fun _ => ⟨Parser.fresh_named negative, rfl⟩, by simp [fresh]⟩

theorem Guarded.contained_iff {h : Handler} (hg : h.Guarded server) :
    h.Contained server ↔ ∀ what, h.phase ≠ .threw what :=
  ⟨fun hc => hc.1, fun hc => ⟨hc, hg.returned⟩⟩

theorem parses_named {h : Handler} (hp : h.parser.Named) {data : Bytes} {p : Parser} {parsed : Nat}
    (hcall : h.parses data = some (.returned p parsed)) : p.Named := by
  obtain ⟨appended, _, hparse⟩ := Option.bind_eq_some_iff.mp hcall
  exact hp.parse (Parser.parse_of_parseChars hparse)

theorem parses_nothing {h : Handler} (hp : h.parser.parseComplete = false) {p : Parser}
    {parsed : Nat} (hcall : h.parses [] = some (.returned p parsed)) : p.parseComplete = false := by
  obtain ⟨appended, _, hparse⟩ := Option.bind_eq_some_iff.mp hcall
  have hnone := Parser.parse_of_parseChars hparse
  rw [List.length_nil, List.take_zero] at hnone
  cases hnone
  exact hp

theorem gather_guarded (sends : ∀ log, 0 < backend.send log) {h t : Handler} {cmd : Option Command}
    {bodySize : UInt32} (hp : h.parser.Named ∧ h.parser.parseComplete = false)
    (hs : h.gather server backend cmd bodySize = some t) :
    t.Guarded server ∧ ∀ what, t.phase ≠ .threw what := by
  rcases gather_cases sends hs with ⟨_, rfl⟩ | ⟨_, com, _, rfl⟩
  · exact ⟨⟨fun _ => hp, by simp⟩, by simp⟩
  · exact ⟨⟨fun _ => hp, by simp [answered, nextPass]⟩, by simp [answered, nextPass]⟩

/-- An exception leaves the handler only where `Build` throws. -/
theorem Guarded.of_move (sends : ∀ log, 0 < backend.send log) {h t : Handler} {i : Input}
    (hg : h.Guarded server) (hm : Moves server backend h i t) :
    t.Guarded server ∧ ∀ what, t.phase = .threw what → h.phase = .threw what ∨
      ∃ data name, i = .read data ∧ h.phase = .outer ∧ h.completes data = some name ∧
        (name = text "gets" ∨ name = text "prepend") := by
  cases hm with
  | ended _ => exact ⟨hg, fun what hw => Or.inl hw⟩
  | finished _ _ =>
    exact ⟨⟨by simp [finish, HandlerPhase.ended], fun _ => List.suffix_append _ _⟩, by simp [finish]⟩
  | rejected _ _ call =>
    exact ⟨⟨by simp [finish, HandlerPhase.ended], fun _ => List.suffix_append _ _⟩, by simp [finish]⟩
  | waited outer _ call incomplete =>
    have hnamed := parses_named (hg.parser (by rw [outer]; rfl)).1 call
    exact ⟨⟨fun _ => ⟨hnamed, incomplete⟩, by simp [nextPass]⟩, by simp [nextPass]⟩
  | @escaped data _ p _ what bodySize outer _ call complete built =>
    have hnamed := parses_named (hg.parser (by rw [outer]; rfl)).1 call
    refine ⟨⟨by simp [HandlerPhase.ended], by simp⟩, fun _ _ => Or.inr ?_⟩
    refine ⟨data, p.name, rfl, outer, by simp [completes, call, complete], ?_⟩
    exact (hnamed.build_error_iff complete 0).mp ⟨what, bodySize, built⟩
  | began outer _ call complete built gathers =>
    obtain ⟨hguarded, hcontained⟩ := gather_guarded sends ⟨Parser.fresh_named _, rfl⟩ gathers
    exact ⟨hguarded, fun what hw => absurd hw (hcontained what)⟩
  | gathered inner _ _ gathers =>
    have hreading := hg.parser (by rw [inner]; rfl)
    obtain ⟨hguarded, hcontained⟩ := gather_guarded sends (by exact hreading) gathers
    exact ⟨hguarded, fun what hw => absurd hw (hcontained what)⟩

theorem Guarded.escapes (backend : Backend) {h : Handler} (hg : h.Guarded server) {data : Bytes} {name : Bytes}
    (hd : data.length ≤ bufSize) (outer : h.phase = .outer) (hc : h.completes data = some name)
    (hname : name = text "gets" ∨ name = text "prepend") :
    ∃ t what, h.step server backend (.read data) = some (t, ()) ∧ t.phase = .threw what := by
  obtain ⟨hnamed, hopen⟩ := hg.parser (by rw [outer]; rfl)
  unfold completes at hc
  split at hc
  next p parsed hcall =>
    split at hc
    next complete =>
      cases Option.some.inj hc
      obtain ⟨what, bodySize, built⟩ :=
        ((parses_named hnamed hcall).build_error_iff complete 0).mpr hname
      have hne : data ≠ [] := by
        rintro rfl
        rw [parses_nothing hopen hcall] at complete
        cases complete
      obtain ⟨appended, hstring, hparse⟩ := Option.bind_eq_some_iff.mp hcall
      refine ⟨{ h with
        parser := p, command := (h.command ++ appended).drop parsed
        buf := overwrite h.buf 0 data, phase := .threw what }, what, ?_, rfl⟩
      rw [step_read hd, onRead_outer outer hne]
      simp only [readHeader, hstring, Option.bind_eq_bind, Option.bind_some, hparse, complete, if_true,
        built, Option.pure_def, Option.map_some]
    next => cases hc
  next => cases hc

end Handler

/-- Over every run of either handler in which replies can be sent, no exception
leaves it, and one that returns has done its epilogue, if and only if no read
completes the header of a `gets` or of a `prepend`. -/
theorem exceptions_contained_iff (server : Server) {backend : Backend} (sends : ∀ log, 0 < backend.send log)
    (negative : Bool) (inputs : List Input) :
    (∀ history h, Handler.Reach server backend negative history h →
        history.map Prod.fst <+: inputs → h.Contained server) ↔
      ∀ history h i, Handler.Reach server backend negative history h →
        history.map Prod.fst ++ [i] <+: inputs → h.Supported i := by
  refine PartialRun.holds_along_iff (I := Handler.Guarded server) (Handler.fresh_guarded _ _)
    (fun h i t r hg hs => (hg.of_move sends (Handler.moves_of_step sends hs)).1)
    ((Handler.fresh_guarded server negative).contained_iff.mpr (by simp [Handler.fresh])) ?_ inputs
  intro h i hg hc
  constructor
  · intro hp
    cases i with
    | readFailed => exact trivial
    | stopped => exact trivial
    | read data =>
      intro hd outer
      have hnone : ∀ name, name = text "gets" ∨ name = text "prepend" →
          h.completes data ≠ some name := by
        intro name hname hcompletes
        obtain ⟨t, what, hs, hthrew⟩ := hg.escapes backend hd outer hcompletes hname
        exact (hp t () hs).1 what hthrew
      exact ⟨hnone _ (Or.inl rfl), hnone _ (Or.inr rfl)⟩
  · intro hsupported t r hs
    have hmove := hg.of_move sends (Handler.moves_of_step sends hs)
    refine hmove.1.contained_iff.mpr fun what hw => ?_
    rcases hmove.2 what hw with hbefore | ⟨data, name, rfl, outer, hcompletes, hname⟩
    · exact hc.1 what hbefore
    · have hd : data.length ≤ bufSize := by
        by_contra hlong
        simp [Handler.step, hlong] at hs
      have hboth := hsupported hd outer
      rcases hname with rfl | rfl
      · exact hboth.1 hcompletes
      · exact hboth.2 hcompletes

def Backend.working : Backend := ⟨fun _ => some [], fun _ => 1⟩

theorem working_sends (log : List HandlerEvent) : 0 < Backend.working.send log := Int.zero_lt_one

theorem exceptions_contained_iff_cut_set :
    (∀ log, 0 < Backend.working.send log) ∧
      ∀ history h, Handler.Reach .nonBlocking .working false history h →
        history.map Prod.fst <+: [.read (text "set k 0 0 3\r"), .read (text "\nab"),
          .read (text "c\r\n"), .read (text "stats\n"), .readFailed] →
        h.Contained .nonBlocking :=
  ⟨working_sends, (exceptions_contained_iff .nonBlocking working_sends false _).mpr
    (PartialRun.holds_of_each (by decide))⟩

/-- The exception for `gets` leaves `RunConnection`, which neither closes the
socket nor removes its thread. -/
theorem gets_escapes :
    ∃ history h, PartialRun.Reach (runConnection .working) (Handler.fresh false) history h ∧
      history.map Prod.fst = [.read (text "gets k\r\n")] ∧
      (h.phase = .threw (text "Unsupported command") ∧ h.log = []) ∧ ¬ h.Contained .blocking := by
  obtain ⟨history, h, reach, hcalls, hend⟩ := PartialRun.reach_of_check (runConnection .working)
    (Handler.fresh false) [.read (text "gets k\r\n")]
    (fun h => h.phase = .threw (text "Unsupported command") ∧ h.log = []) (by decide)
  exact ⟨history, h, reach, hcalls, hend, fun hc => hc.1 _ hend.1⟩

end Afina
