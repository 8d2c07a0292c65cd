import Afina.HandlerCore

namespace Afina

open Scan

namespace Handler

variable {server : Server} {backend : Backend}

theorem sendOutput_sent (sends : ∀ log, 0 < backend.send log) (h : Handler) (output : Bytes)
    (onFailure : List HandlerEvent) (next : Handler → Handler) :
    h.sendOutput backend output onFailure next =
      next { h with log := h.log ++ [.sent output] } := by
  have hsent := sends (h.log ++ [.sent output])
  simp only [sendOutput, if_neg (show ¬ backend.send (h.log ++ [.sent output]) ≤ 0 by omega)]

/-- What `Parse` answers in the outer loop after a read of this data. -/
def parses (h : Handler) (data : Bytes) : Option (Result Parser ParseError) := do
  let appended ← cString (overwrite h.buf 0 data)
  h.parser.parseChars (h.command ++ appended ++ [0]) data.length

/-- A command with its body complete: it is executed and its reply sent. -/
def answered (backend : Backend) (h : Handler) (com : Command) (args : Bytes) : Handler :=
  let log := h.log ++ [.executed com args]
  nextPass { h with
    command := []
    log := log ++ [.sent ((backend.output log).getD (text "SERVER_ERROR") ++ text "\r\n")] }

/-- The part of a body that is passed to its command. -/
def arguments (h : Handler) (bodySize : UInt32) : Bytes :=
  if 0 < bodySize then h.command.take bodySize.toNat else []

def Lacks (h : Handler) (bodySize : UInt32) : Prop :=
  0 < bodySize ∧ (bodySize + 2).toNat > h.command.length

instance (h : Handler) (bodySize : UInt32) : Decidable (h.Lacks bodySize) :=
  inferInstanceAs (Decidable (0 < bodySize ∧ (bodySize + 2).toNat > h.command.length))

theorem gather_of_lacks {h : Handler} {bodySize : UInt32} (hl : h.Lacks bodySize)
    (cmd : Option Command) :
    h.gather server backend cmd bodySize = some { h with phase := .inner cmd bodySize } :=
  if_pos hl

theorem gather_of_not_lacks (sends : ∀ log, 0 < backend.send log) {h : Handler} {bodySize : UInt32}
    (hl : ¬ h.Lacks bodySize) (com : Command) :
    h.gather server backend (some com) bodySize =
      some (h.answered backend com (h.arguments bodySize)) := by
  unfold Lacks at hl
  simp only [gather, if_neg hl, runCommand, Option.bind_eq_bind, Option.bind_some, Option.pure_def,
    sendOutput_sent sends]
  rfl

/-- The inner loop goes on, or the command is executed. -/
theorem gather_cases (sends : ∀ log, 0 < backend.send log) {h t : Handler} {cmd : Option Command}
    {bodySize : UInt32} (hg : h.gather server backend cmd bodySize = some t) :
    (h.Lacks bodySize ∧ t = { h with phase := .inner cmd bodySize }) ∨
      (¬ h.Lacks bodySize ∧
        ∃ com, cmd = some com ∧ t = h.answered backend com (h.arguments bodySize)) := by
  by_cases hl : h.Lacks bodySize
  · rw [gather_of_lacks hl] at hg
    cases Option.some.inj hg
    exact Or.inl ⟨hl, rfl⟩
  · cases cmd with
    | none =>
      have hnone : h.gather server backend none bodySize = none := if_neg hl
      rw [hnone] at hg
      cases hg
    | some com =>
      rw [gather_of_not_lacks sends hl] at hg
      cases Option.some.inj hg
      exact Or.inr ⟨hl, com, rfl, rfl⟩

theorem step_read {h : Handler} {data : Bytes} (hd : data.length ≤ bufSize) :
    h.step server backend (.read data) = (h.onRead server backend data).map (·, ()) :=
  if_pos hd

theorem onRead_outer {h : Handler} (outer : h.phase = .outer) {data : Bytes} (hne : data ≠ []) :
    h.onRead server backend data =
      readHeader server backend { h with buf := overwrite h.buf 0 data } data.length := by
  simp [onRead, outer, hne]

/-- What one input can do to a handler whose replies are all sent. -/
inductive Moves (server : Server) (backend : Backend) (h : Handler) : Input → Handler → Prop
  | ended {i : Input} (ended : h.phase = .returned ∨ ∃ what, h.phase = .threw what) :
      Moves server backend h i h
  | finished {i : Input} (outer : h.phase = .outer)
      (quiet : (server = .blocking ∧ i = .read []) ∨ i = .readFailed ∨ i = .stopped) :
      Moves server backend h i (h.finish server)
  | rejected {data appended : Bytes} {p : Parser} {e : ParseError} {pos : Nat}
      (outer : h.phase = .outer) (string : cString (overwrite h.buf 0 data) = some appended)
      (call : h.parses data = some (.threw p e pos)) :
      Moves server backend h (.read data) (finish server { h with
        parser := p, command := h.command ++ appended, buf := overwrite h.buf 0 data
        log := h.log ++ [.sent (text "PARSE ERROR\r\n")] })
  | waited {data appended : Bytes} {p : Parser} {parsed : Nat} (outer : h.phase = .outer)
      (string : cString (overwrite h.buf 0 data) = some appended)
      (call : h.parses data = some (.returned p parsed)) (incomplete : p.parseComplete = false) :
      Moves server backend h (.read data) (nextPass { h with
        parser := p, command := (h.command ++ appended).drop parsed
        buf := overwrite h.buf 0 data })
  | escaped {data appended : Bytes} {p : Parser} {parsed : Nat} {what : Bytes} {bodySize : UInt32}
      (outer : h.phase = .outer) (string : cString (overwrite h.buf 0 data) = some appended)
      (call : h.parses data = some (.returned p parsed)) (complete : p.parseComplete = true)
      (built : p.build 0 = some (.error what, bodySize)) :
      Moves server backend h (.read data) { h with
        parser := p, command := (h.command ++ appended).drop parsed
        buf := overwrite h.buf 0 data, phase := .threw what }
  | began {data appended : Bytes} {p : Parser} {parsed : Nat} {cmd : Option Command}
      {bodySize : UInt32} {t : Handler} (outer : h.phase = .outer)
      (string : cString (overwrite h.buf 0 data) = some appended)
      (call : h.parses data = some (.returned p parsed)) (complete : p.parseComplete = true)
      (built : p.build 0 = some (.ok cmd, bodySize))
      (gathers : gather server backend { h with
        parser := p.reset, command := (h.command ++ appended).drop parsed
        buf := overwrite h.buf 0 data } cmd bodySize = some t) :
      Moves server backend h (.read data) t
  | gathered {i : Input} {buf appended : Bytes} {cmd : Option Command} {bodySize : UInt32}
      {t : Handler} (inner : h.phase = .inner cmd bodySize)
      (filled : buf = h.buf ∨ ∃ data, i = .read data ∧ buf = overwrite h.buf 0 data)
      (string : cString buf = some appended)
      (gathers : gather server backend { h with
        command := h.command ++ appended, buf := buf } cmd bodySize = some t) :
      Moves server backend h i t

theorem readHeader_moves (sends : ∀ log, 0 < backend.send log) {h t : Handler}
    (outer : h.phase = .outer) {data : Bytes}
    (hs : readHeader server backend { h with buf := overwrite h.buf 0 data } data.length = some t) :
    Moves server backend h (.read data) t := by
  obtain ⟨appended, hstring, hs⟩ := Option.bind_eq_some_iff.mp hs
  obtain ⟨r, hparse, hs⟩ := Option.bind_eq_some_iff.mp hs
  have hcall : h.parses data = some r := by
    simp only [parses, hstring, Option.bind_eq_bind, Option.bind_some]
    exact hparse
  cases r with
  | threw p e pos =>
    simp only [Option.pure_def, Option.some.injEq, sendOutput_sent sends] at hs
    subst hs
    exact .rejected outer hstring hcall
  | returned p parsed =>
    dsimp only at hs
    split at hs
    next complete =>
      obtain ⟨built, hbuild, hs⟩ := Option.bind_eq_some_iff.mp hs
      obtain ⟨result, bodySize⟩ := built
      cases result with
      | error what =>
        cases Option.some.inj hs
        exact .escaped outer hstring hcall complete hbuild
      | ok cmd => exact .began outer hstring hcall complete hbuild hs
    next incomplete =>
      cases Option.some.inj hs
      exact .waited outer hstring hcall (by simpa using incomplete)

theorem moves_of_step (sends : ∀ log, 0 < backend.send log) {h t : Handler} {i : Input} {r : Unit}
    (hs : h.step server backend i = some (t, r)) : Moves server backend h i t := by
  cases i with
  | read data =>
    simp only [Handler.step] at hs
    split at hs
    next =>
      obtain ⟨t', ht, he⟩ := Option.map_eq_some_iff.mp hs
      cases he
      simp only [onRead] at ht
      split at ht
      next outer =>
        split at ht
        next hend =>
          cases Option.some.inj ht
          exact .finished outer (Or.inl ⟨hend.1, by rw [hend.2.1]⟩)
        next => exact readHeader_moves sends outer ht
      next cmd bodySize inner =>
        obtain ⟨appended, hstring, ht⟩ := Option.bind_eq_some_iff.mp ht
        exact .gathered inner (Or.inr ⟨data, rfl, rfl⟩) hstring ht
      next hend => cases Option.some.inj ht; exact .ended (Or.inl hend)
      next what hend => cases Option.some.inj ht; exact .ended (Or.inr ⟨what, hend⟩)
    next => cases hs
  | readFailed =>
    simp only [Handler.step] at hs
    split at hs
    next outer =>
      cases Option.some.inj hs
      exact .finished outer (Or.inr (Or.inl rfl))
    next cmd bodySize inner =>
      obtain ⟨t', ht, he⟩ := Option.map_eq_some_iff.mp hs
      cases he
      obtain ⟨appended, hstring, ht⟩ := Option.bind_eq_some_iff.mp ht
      exact .gathered inner (Or.inl rfl) hstring ht
    next hend => cases Option.some.inj hs; exact .ended (Or.inl hend)
    next what hend => cases Option.some.inj hs; exact .ended (Or.inr ⟨what, hend⟩)
  | stopped =>
    simp only [Handler.step] at hs
    split at hs
    next outer =>
      cases Option.some.inj hs
      exact .finished outer (Or.inr (Or.inr rfl))
    next => cases hs

/-- From the inner loop the only way goes through its condition. -/
theorem Moves.of_inner {h t : Handler} {i : Input} (hm : Moves server backend h i t)
    {cmd : Option Command} {bodySize : UInt32} (inner : h.phase = .inner cmd bodySize) :
    ∃ buf appended, gather server backend { h with
      command := h.command ++ appended, buf := buf } cmd bodySize = some t := by
  cases hm with
  | ended ended => rcases ended with hr | ⟨what, hr⟩ <;> simp [inner] at hr
  | finished outer _ => simp [inner] at outer
  | rejected outer _ _ => simp [inner] at outer
  | waited outer _ _ _ => simp [inner] at outer
  | escaped outer _ _ _ _ => simp [inner] at outer
  | began outer _ _ _ _ _ => simp [inner] at outer
  | @gathered _ buf appended _ _ _ inner' _ _ gathers =>
    cases inner.symm.trans inner'
    exact ⟨buf, appended, gathers⟩

@[simp] theorem answered_executed (h : Handler) (com : Command) (args : Bytes) :
    (h.answered backend com args).executed = h.executed ++ [(com, args)] := by
  simp [answered, nextPass, executed]

@[simp] theorem answered_sent (h : Handler) (com : Command) (args : Bytes) :
    (h.answered backend com args).sent.length = h.sent.length + 1 := by
  simp [answered, nextPass, sent]

@[simp] theorem answered_phase (h : Handler) (com : Command) (args : Bytes) :
    (h.answered backend com args).phase = .outer := rfl

@[simp] theorem answered_command (h : Handler) (com : Command) (args : Bytes) :
    (h.answered backend com args).command = [] := rfl

theorem executed_epilogue (server : Server) (h : Handler) : (h.finish server).executed = h.executed := by
  cases server <;> simp [finish, executed, Server.epilogue]

theorem executed_of_gather (sends : ∀ log, 0 < backend.send log) {h t : Handler}
    {cmd : Option Command} {bodySize : UInt32} (hs : h.gather server backend cmd bodySize = some t) :
    (t.phase = .inner cmd bodySize ∧ t.executed = h.executed) ∨
      ∃ call, t.executed = h.executed ++ [call] := by
  rcases gather_cases sends hs with ⟨_, rfl⟩ | ⟨_, com, _, rfl⟩
  · exact Or.inl ⟨rfl, rfl⟩
  · exact Or.inr ⟨_, answered_executed _ _ _⟩

theorem Moves.executed (sends : ∀ log, 0 < backend.send log) {h t : Handler} {i : Input}
    (hm : Moves server backend h i t) : h.executed <+: t.executed := by
  have hgather : ∀ {h' : Handler} {cmd : Option Command} {bodySize : UInt32},
      h'.gather server backend cmd bodySize = some t → h'.executed = h.executed →
      h.executed <+: t.executed := by
    intro h' cmd bodySize hs hsame
    rw [← hsame]
    rcases executed_of_gather sends hs with ⟨_, he⟩ | ⟨call, he⟩
    · rw [he]
    · rw [he]
      exact List.prefix_append _ _
  cases hm with
  | ended _ => exact List.prefix_refl _
  | finished _ _ => rw [executed_epilogue]
  | rejected _ _ _ =>
    rw [executed_epilogue]
    simp [Handler.executed]
  | waited _ _ _ _ => exact List.prefix_refl _
  | escaped _ _ _ _ _ => exact List.prefix_refl _
  | began _ _ _ _ _ gathers => exact hgather gathers rfl
  | gathered _ _ _ gathers => exact hgather gathers rfl

/-- The state after some inputs, if all of them are defined. -/
def after (server : Server) (backend : Backend) (h : Handler) (inputs : List Input) :
    Option Handler :=
  (PartialRun.run (Handler.step server backend) h inputs).map Prod.fst

theorem after_cons (h : Handler) (i : Input) (rest : List Input) :
    h.after server backend (i :: rest) =
      (h.step server backend i).bind fun r => r.1.after server backend rest := by
  rw [after, PartialRun.run]
  cases h.step server backend i with
  | none => rfl
  | some r =>
    obtain ⟨t, u⟩ := r
    simp only [Option.bind_eq_bind, Option.bind_some, after]
    cases PartialRun.run (Handler.step server backend) t rest with
    | none => rfl
    | some last => rfl

theorem after_append (h : Handler) (first second : List Input) :
    h.after server backend (first ++ second) =
      (h.after server backend first).bind fun t => t.after server backend second := by
  induction first generalizing h with
  | nil => rfl
  | cons i rest ih =>
    rw [List.cons_append, after_cons, after_cons]
    cases h.step server backend i with
    | none => rfl
    | some r => exact ih r.1

theorem after_reads {h mid : Handler} {before : List Bytes}
    (hmid : h.after server backend (before.map Input.read) = some mid) (data : Bytes)
    (later : List Bytes) :
    h.after server backend ((before ++ data :: later).map Input.read) =
      (mid.step server backend (.read data)).bind fun r =>
        r.1.after server backend (later.map Input.read) := by
  rw [List.map_append, after_append, hmid, Option.bind_some, List.map_cons, after_cons]

theorem after_cons_eq_some {h t : Handler} {i : Input} {rest : List Input}
    (ha : h.after server backend (i :: rest) = some t) :
    ∃ mid, h.step server backend i = some (mid, ()) ∧ mid.after server backend rest = some t := by
  rw [after_cons] at ha
  obtain ⟨⟨mid, _⟩, hs, ha⟩ := Option.bind_eq_some_iff.mp ha
  exact ⟨mid, hs, ha⟩

theorem after_append_eq_some {h t : Handler} {first second : List Input}
    (ha : h.after server backend (first ++ second) = some t) :
    ∃ mid, h.after server backend first = some mid ∧ mid.after server backend second = some t := by
  rw [after_append] at ha
  exact Option.bind_eq_some_iff.mp ha

/-- What every one of the inputs keeps holds after them. -/
theorem after_invariant {I : Handler → Prop} {inputs : List Input}
    (keep : ∀ h, ∀ i ∈ inputs, ∀ t, I h → h.step server backend i = some (t, ()) → I t)
    {h t : Handler} (hi : I h) (ha : h.after server backend inputs = some t) : I t := by
  induction inputs generalizing h with
  | nil =>
    cases Option.some.inj ha
    exact hi
  | cons i rest ih =>
    obtain ⟨mid, hs, ha⟩ := after_cons_eq_some ha
    exact ih (fun h i' hi' => keep h i' (List.mem_cons_of_mem i hi'))
      (keep h i List.mem_cons_self mid hi hs) ha

end Handler

end Afina
