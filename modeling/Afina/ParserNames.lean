import Afina.ParserCore

namespace Afina

open Scan

/-- The names that `Parse` lets pass. -/
def commandNames : List Bytes :=
  [text "set", text "add", text "append", text "prepend", text "get", text "gets", text "stats"]

namespace Parser

structure Named (p : Parser) : Prop where
  name : p.state ≠ .sName → p.name ∈ commandNames
  complete : p.parseComplete = true → p.state = .sLF

theorem fresh_named (negative : Bool) : (fresh negative).Named :=
  ⟨fun h => absurd rfl h, by simp [fresh]⟩

theorem Named.of_same {p q : Parser} (h : p.Named) (hs : p.state ≠ .sName) (hl : p.state ≠ .sLF)
    (hn : q.name = p.name) (hc : q.parseComplete = p.parseComplete) : q.Named := by
  refine ⟨fun _ => by rw [hn]; exact h.name hs, fun hq => ?_⟩
  exact absurd (h.complete (hc ▸ hq)) hl

theorem Named.stepName {p q : Parser} {c : UInt8} (h : p.Named) (hs : p.state = .sName)
    (hq : p.stepName c = .ok q) : q.Named := by
  have hopen : p.parseComplete ≠ true := fun hc => by
    have := h.complete hc
    simp [hs] at this
  unfold Parser.stepName at hq
  split at hq
  next =>
    split at hq
    next hname =>
      cases hq
      exact ⟨fun _ => by rcases hname with hn | hn | hn | hn <;> simp [commandNames, hn],
        fun hc => absurd hc hopen⟩
    next =>
      split at hq
      next hname =>
        cases hq
        exact ⟨fun _ => by rcases hname with hn | hn <;> simp [commandNames, hn],
          fun hc => absurd hc hopen⟩
      next =>
        split at hq
        next hname =>
          cases hq
          exact ⟨fun _ => by simp [commandNames, hname], fun hc => absurd hc hopen⟩
        next => cases hq
  next =>
    cases hq
    exact ⟨fun hne => absurd hs hne, fun hc => absurd hc hopen⟩

theorem Named.step {p q : Parser} {c : UInt8} (h : p.Named) (hq : p.step c = .ok q) : q.Named := by
  cases hs : p.state <;> simp only [Parser.step, hs] at hq
  case sName => exact h.stepName hs hq
  case sCR => cases hq
  case sLF =>
    unfold stepLF at hq
    split at hq
    next =>
      cases hq
      exact ⟨fun _ => h.name (by simp [hs]), fun _ => hs⟩
    next => cases hq
  all_goals
    have hname : p.state ≠ .sName := by simp [hs]
    have hline : p.state ≠ .sLF := by simp [hs]
    simp only [stepPutKey, stepGetKey, stepFlags, stepExprTimeStart, stepExprTime, stepBytes] at hq
    repeat' split at hq
    all_goals
      cases hq
      try exact h.of_same hname hline rfl rfl

theorem Named.parse {p q : Parser} {input : Bytes} {n : Nat} (h : p.Named)
    (hq : p.parse input = .returned q n) : q.Named :=
  invariant_of_returned (fun _ _ _ hp hs => hp.step hs) h hq

/-- Once a character of a name is read, the parser has a name. -/
theorem step_name_ne_nil {p q : Parser} {c : UInt8} (h : p.state = .sName ∨ p.name ≠ [])
    (hq : p.step c = .ok q) : q.name ≠ [] := by
  cases hs : p.state <;> simp only [Parser.step, hs] at hq
  case sName =>
    unfold stepName at hq
    split at hq
    next =>
      have hnil : p.name ≠ [] := by
        intro hnil
        simp [hnil, text] at hq
      repeat' split at hq
      all_goals
        cases hq
        try exact hnil
    next =>
      cases hq
      exact List.append_ne_nil_of_right_ne_nil _ (List.cons_ne_nil _ _)
  case sCR => cases hq
  all_goals
    have hne : p.name ≠ [] := h.resolve_left (by simp [hs])
    simp only [stepPutKey, stepGetKey, stepFlags, stepExprTimeStart, stepExprTime, stepBytes,
      stepLF] at hq
    repeat' split at hq
    all_goals
      cases hq
      try exact hne

theorem parse_name_ne_nil {p q : Parser} {input : Bytes} {n : Nat} (h : p.name ≠ [])
    (hq : p.parse input = .returned q n) : q.name ≠ [] :=
  invariant_of_returned (I := fun p => p.name ≠ [])
    (fun _ _ _ hp hs => step_name_ne_nil (Or.inr hp) hs) h hq

theorem parse_fresh_name_ne_nil {negative : Bool} {q : Parser} {input : Bytes} {n : Nat}
    (hne : input ≠ []) (hq : (fresh negative).parse input = .returned q n) : q.name ≠ [] := by
  obtain ⟨c, rest, rfl⟩ := List.exists_cons_of_ne_nil hne
  rcases scan_cons_cases hq with ⟨hc, _⟩ | ⟨u, k, _, hstep, hrest, _⟩
  · cases hc
  · exact parse_name_ne_nil (step_name_ne_nil (Or.inl rfl) hstep) hrest

theorem buildInsert_some {p : Parser} {kind : InsertKind} {r : Except Bytes (Option Command)}
    (h : p.buildInsert kind = some r) :
    ∃ key, r = .ok (some (.insert kind ⟨key, p.flags, p.exprtime⟩)) := by
  obtain ⟨key, _, hkey⟩ := Option.bind_eq_some_iff.mp h
  cases Option.some.inj hkey
  exact ⟨key, rfl⟩

/-- What `Build` returns behind the end of a line: the size that the header
declares, and the command of its name, or an error for a name without one. -/
theorem build_cases {p : Parser} (hs : p.state = .sLF) {b n : UInt32}
    {r : Except Bytes (Option Command)} (h : p.build b = some (r, n)) :
    n = p.bytes ∧
      ((∃ kind key, r = .ok (some (.insert kind ⟨key, p.flags, p.exprtime⟩))) ∨
        r = .ok (some (.get p.keys)) ∨ r = .ok (some .stats) ∨
        (p.name ∉ [text "set", text "add", text "append", text "get", text "stats"] ∧
          r = .error (text "Unsupported command"))) := by
  rw [build, if_pos hs] at h
  obtain ⟨r', hr, heq⟩ := Option.map_eq_some_iff.mp h
  cases heq
  refine ⟨rfl, ?_⟩
  split at hr
  next => exact Or.inl ⟨_, buildInsert_some hr⟩
  next hset =>
    split at hr
    next => exact Or.inl ⟨_, buildInsert_some hr⟩
    next hadd =>
      split at hr
      next => exact Or.inl ⟨_, buildInsert_some hr⟩
      next happend =>
        split at hr
        next =>
          cases Option.some.inj hr
          exact Or.inr (Or.inl rfl)
        next hget =>
          split at hr
          next =>
            cases Option.some.inj hr
            exact Or.inr (Or.inr (Or.inl rfl))
          next hstats =>
            cases Option.some.inj hr
            refine Or.inr (Or.inr (Or.inr ⟨?_, rfl⟩))
            simp [hset, hadd, happend, hget, hstats]

theorem build_bytes {p : Parser} (hs : p.state = .sLF) {b n : UInt32}
    {r : Except Bytes (Option Command)}
    (h : p.build b = some (r, n)) : n = p.bytes :=
  (build_cases hs h).1

theorem build_ok_isSome {p : Parser} (hs : p.state = .sLF) {b n : UInt32} {cmd : Option Command}
    (h : p.build b = some (.ok cmd, n)) : cmd.isSome := by
  rcases (build_cases hs h).2 with ⟨kind, key, hr⟩ | hr | hr | ⟨_, hr⟩
  · cases hr
    rfl
  · cases hr
    rfl
  · cases hr
    rfl
  · cases hr

/-- `Build` throws for the two names that it does not know. -/
theorem Named.build_error_iff {p : Parser} (h : p.Named) (hc : p.parseComplete = true)
    (b : UInt32) : (∃ what n, p.build b = some (.error what, n)) ↔
      p.name = text "gets" ∨ p.name = text "prepend" := by
  have hstate := h.complete hc
  have hname := h.name (by simp [hstate])
  constructor
  · rintro ⟨what, n, hb⟩
    rcases (build_cases hstate hb).2 with ⟨kind, key, hr⟩ | hr | hr | ⟨hother, _⟩
    · cases hr
    · cases hr
    · cases hr
    · simp only [commandNames, List.mem_cons, List.not_mem_nil, or_false, not_or] at hname hother
      simpa [hother, or_comm] using hname
  · have hnone : p.name ∉ [text "set", text "add", text "append", text "get", text "stats"] →
        p.build b = some (.error (text "Unsupported command"), p.bytes) := by
      intro hn
      simp only [List.mem_cons, List.not_mem_nil, or_false, not_or] at hn
      simp [build, hstate, hn]
    rintro (hn | hn)
    · exact ⟨_, _, hnone (by rw [hn]; decide)⟩
    · exact ⟨_, _, hnone (by rw [hn]; decide)⟩

/-- A header that has come as far as its flags has a key, and so has a finished
one of any name but `stats`. -/
structure Keyed (p : Parser) : Prop where
  fields : p.state ∈ [.spFlags, .spExprTimeStart, .spExprTime, .spBytes] → p.keys ≠ []
  line : p.state = .sLF → p.name = text "stats" ∨ p.keys ≠ []

theorem fresh_keyed (negative : Bool) : (fresh negative).Keyed :=
  ⟨by simp [fresh], by simp [fresh]⟩

theorem Keyed.of_keys {p : Parser} (h : p.keys ≠ []) : p.Keyed := ⟨fun _ => h, fun _ => Or.inr h⟩

theorem Keyed.stepName {p q : Parser} {c : UInt8} (hs : p.state = .sName)
    (hq : p.stepName c = .ok q) : q.Keyed := by
  unfold Parser.stepName at hq
  split at hq
  next =>
    split at hq
    next => cases hq; exact ⟨by simp, by simp⟩
    next =>
      split at hq
      next => cases hq; exact ⟨by simp, by simp⟩
      next =>
        split at hq
        next hname => cases hq; exact ⟨by simp, fun _ => Or.inl hname⟩
        next => cases hq
  next => cases hq; exact ⟨by simp [hs], by simp [hs]⟩

theorem Keyed.stepGetKey {p q : Parser} {c : UInt8} (hs : p.state = .sgKey)
    (hq : p.stepGetKey c = .ok q) : q.Keyed := by
  unfold Parser.stepGetKey at hq
  dsimp only at hq
  split at hq
  next =>
    split at hq
    next => cases hq
    next => cases hq; exact .of_keys (by simp)
  next =>
    split at hq
    next => cases hq; exact .of_keys (by simp)
    next => cases hq; exact ⟨by simp [hs], by simp [hs]⟩

theorem Keyed.step {p q : Parser} {c : UInt8} (h : p.Keyed) (hq : p.step c = .ok q) : q.Keyed := by
  cases hs : p.state <;> simp only [Parser.step, hs] at hq
  case sName => exact .stepName hs hq
  case sgKey => exact .stepGetKey hs hq
  case sCR => cases hq
  case sLF =>
    unfold stepLF at hq
    split at hq
    next => cases hq; exact ⟨by simp [hs], fun _ => h.line hs⟩
    next => cases hq
  case spKey =>
    unfold stepPutKey at hq
    split at hq
    next => cases hq; exact .of_keys (by simp)
    next => cases hq; exact ⟨by simp [hs], by simp [hs]⟩
  -- the number fields leave the keys as they are
  all_goals
    have hkeys : p.keys ≠ [] := h.fields (by simp [hs])
    simp only [stepFlags, stepExprTimeStart, stepExprTime, stepBytes] at hq
    repeat' split at hq
    all_goals
      cases hq
      try exact .of_keys hkeys

theorem Keyed.parse {p q : Parser} {input : Bytes} {n : Nat} (h : p.Keyed)
    (hq : p.parse input = .returned q n) : q.Keyed :=
  invariant_of_returned (fun _ _ _ hp hs => hp.step hs) h hq

theorem Keyed.build_isSome {p : Parser} (h : p.Keyed) (b : UInt32) : (p.build b).isSome := by
  have hinsert : ∀ kind, p.state = .sLF → p.name ≠ text "stats" →
      ((p.buildInsert kind).map (·, p.bytes)).isSome := by
    intro kind hs hname
    obtain ⟨key, rest, hkeys⟩ := List.exists_cons_of_ne_nil ((h.line hs).resolve_left hname)
    simp [buildInsert, hkeys]
  unfold build
  split
  next hs =>
    split
    next hname => exact hinsert _ hs (by rw [hname]; decide)
    next =>
      split
      next hname => exact hinsert _ hs (by rw [hname]; decide)
      next =>
        split
        next hname => exact hinsert _ hs (by rw [hname]; decide)
        next =>
          split
          next => rfl
          next => split <;> rfl
  next => rfl

end Parser

end Afina
