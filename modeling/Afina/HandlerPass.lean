import Afina.HandlerCore

namespace Afina

/-- What a handler makes of an input, up to where it needs the outside: it is at
its next `read` or at its end, it sends that it rejects the header, or it executes
a command. -/
inductive Pass
  | reads (h : Handler)
  | rejects (h : Handler)
  | executes (h : Handler) (com : Command) (args : Bytes)

namespace Handler

def passCommand (h : Handler) (cmd : Option Command) (bodySize : UInt32) : Option Pass := do
  let com ← cmd
  pure (.executes h com (if 0 < bodySize then h.command.take bodySize.toNat else []))

def passGather (h : Handler) (cmd : Option Command) (bodySize : UInt32) : Option Pass :=
  if 0 < bodySize ∧ (bodySize + 2).toNat > h.command.length then
    some (.reads { h with phase := .inner cmd bodySize })
  else h.passCommand cmd bodySize

def passHeader (h : Handler) (received : Nat) : Option Pass := do
  let appended ← cString h.buf
  let h : Handler := { h with command := h.command ++ appended }
  match ← h.parser.parseChars (h.command ++ [0]) received with
  | .threw p _ _ => pure (.rejects { h with parser := p })
  | .returned p parsed =>
    let h : Handler := { h with parser := p, command := h.command.drop parsed }
    if p.parseComplete then
      match ← p.build 0 with
      | (.error what, _) => pure (.reads { h with phase := .threw what })
      | (.ok cmd, bodySize) => passGather { h with parser := p.reset } cmd bodySize
    else pure (.reads h.nextPass)

def passBody (h : Handler) (cmd : Option Command) (bodySize : UInt32) : Option Pass := do
  let appended ← cString h.buf
  passGather { h with command := h.command ++ appended } cmd bodySize

def passRead (server : Server) (h : Handler) (data : Bytes) : Option Pass :=
  let filled := { h with buf := overwrite h.buf 0 data }
  match h.phase with
  | .outer =>
    if server = .blocking ∧ data = [] ∧ h.command = [] then some (.reads (h.finish server))
    else filled.passHeader data.length
  | .inner cmd bodySize => filled.passBody cmd bodySize
  | .returned => some (.reads h)
  | .threw _ => some (.reads h)

def pass (server : Server) (h : Handler) : Input → Option Pass
  | .read data => if data.length ≤ bufSize then h.passRead server data else none
  | .readFailed =>
    match h.phase with
    | .outer => some (.reads (h.finish server))
    | .inner cmd bodySize => h.passBody cmd bodySize
    | .returned => some (.reads h)
    | .threw _ => some (.reads h)
  | .stopped =>
    match h.phase with
    | .outer => some (.reads (h.finish server))
    | _ => none

end Handler

/-- The rest of the pass, with what the outside answers. -/
def Pass.answer (server : Server) (backend : Backend) : Pass → Handler
  | .reads h => h
  | .rejects h => h.sendOutput backend (text "PARSE ERROR\r\n") [.closed] (Handler.finish server)
  | .executes h com args =>
    let h : Handler := { h with command := [], log := h.log ++ [.executed com args] }
    let result := (backend.output h.log).getD (text "SERVER_ERROR") ++ text "\r\n"
    h.sendOutput backend result server.onUnsent Handler.nextPass

namespace Handler

variable {server : Server} {backend : Backend}

theorem gather_eq_pass (h : Handler) (cmd : Option Command) (bodySize : UInt32) :
    h.gather server backend cmd bodySize =
      (h.passGather cmd bodySize).map (Pass.answer server backend) := by
  unfold gather passGather
  split
  · rfl
  · cases cmd <;> rfl

theorem readHeader_eq_pass (h : Handler) (received : Nat) :
    h.readHeader server backend received =
      (h.passHeader received).map (Pass.answer server backend) := by
  unfold readHeader passHeader
  cases cString h.buf with
  | none => rfl
  | some appended =>
    dsimp only [Option.bind_eq_bind, Option.bind_some]
    cases Parser.parseChars _ _ received with
    | none => rfl
    | some r =>
      cases r with
      | threw p e pos => rfl
      | returned p parsed =>
        dsimp only [Option.bind_some]
        split
        · cases p.build 0 with
          | none => rfl
          | some built =>
            obtain ⟨result, bodySize⟩ := built
            cases result with
            | error what => rfl
            | ok cmd => exact gather_eq_pass _ cmd bodySize
        · rfl

theorem readBody_eq_pass (h : Handler) (cmd : Option Command) (bodySize : UInt32) :
    h.readBody server backend cmd bodySize =
      (h.passBody cmd bodySize).map (Pass.answer server backend) := by
  unfold readBody passBody
  cases cString h.buf with
  | none => rfl
  | some appended => exact gather_eq_pass _ cmd bodySize

theorem onRead_eq_pass (h : Handler) (data : Bytes) :
    h.onRead server backend data =
      (h.passRead server data).map (Pass.answer server backend) := by
  unfold onRead passRead
  cases h.phase with
  | outer =>
    dsimp only
    split
    · rfl
    · exact readHeader_eq_pass _ _
  | inner cmd bodySize => exact readBody_eq_pass _ _ _
  | returned => rfl
  | threw what => rfl

/-- A step is its pass with the answers of the outside. -/
theorem step_eq_pass (h : Handler) (i : Input) :
    h.step server backend i =
      (h.pass server i).map fun p => (p.answer server backend, ()) := by
  cases i with
  | read data =>
    simp only [step, pass]
    split
    · rw [onRead_eq_pass, Option.map_map]
      rfl
    · rfl
  | readFailed =>
    simp only [step, pass]
    cases h.phase with
    | outer => rfl
    | inner cmd bodySize =>
      dsimp only
      rw [readBody_eq_pass, Option.map_map]
      rfl
    | returned => rfl
    | threw what => rfl
  | stopped =>
    simp only [step, pass]
    cases h.phase <;> rfl

theorem pass_of_step {h t : Handler} {i : Input} {r : Unit}
    (hs : h.step server backend i = some (t, r)) :
    ∃ p, h.pass server i = some p ∧ p.answer server backend = t := by
  rw [step_eq_pass] at hs
  obtain ⟨p, hp, he⟩ := Option.map_eq_some_iff.mp hs
  cases he
  exact ⟨p, hp, rfl⟩

/-- All that a pass can be, by what it has added to the log. -/
inductive Passes (server : Server) (h : Handler) : Pass → Prop
  | ended (ended : h.phase.ended = true) : Passes server h (.reads h)
  | reads {t : Handler} (goesOn : h.phase.ended = false) (log : t.log = h.log)
      (phase : t.phase.ended = false) : Passes server h (.reads t)
  | escaped {t : Handler} {what : Bytes} (goesOn : h.phase.ended = false) (log : t.log = h.log)
      (phase : t.phase = .threw what) : Passes server h (.reads t)
  | finished {t : Handler} (goesOn : h.phase.ended = false) (log : t.log = h.log ++ server.epilogue)
      (phase : t.phase = .returned) : Passes server h (.reads t)
  | rejects {t : Handler} (goesOn : h.phase.ended = false) (log : t.log = h.log) :
      Passes server h (.rejects t)
  | executes {t : Handler} {com : Command} {args : Bytes} (goesOn : h.phase.ended = false)
      (log : t.log = h.log) : Passes server h (.executes t com args)

theorem passes_gather {h g : Handler} {cmd : Option Command} {bodySize : UInt32} {p : Pass}
    (goesOn : h.phase.ended = false) (hp : g.passGather cmd bodySize = some p)
    (hlog : g.log = h.log) : Passes server h p := by
  unfold passGather at hp
  split at hp
  next =>
    cases Option.some.inj hp
    exact .reads goesOn hlog rfl
  next =>
    obtain ⟨com, rfl, hp⟩ := Option.bind_eq_some_iff.mp hp
    cases Option.some.inj hp
    exact .executes goesOn hlog

theorem passes_header {h g : Handler} {received : Nat} {p : Pass}
    (goesOn : h.phase.ended = false) (hp : g.passHeader received = some p)
    (hlog : g.log = h.log) : Passes server h p := by
  obtain ⟨appended, _, hp⟩ := Option.bind_eq_some_iff.mp hp
  obtain ⟨r, _, hp⟩ := Option.bind_eq_some_iff.mp hp
  cases r with
  | threw q e pos =>
    cases Option.some.inj hp
    exact .rejects goesOn hlog
  | returned q parsed =>
    dsimp only at hp
    split at hp
    next =>
      obtain ⟨⟨result, bodySize⟩, _, hp⟩ := Option.bind_eq_some_iff.mp hp
      cases result with
      | error what =>
        cases Option.some.inj hp
        exact .escaped goesOn hlog rfl
      | ok cmd => exact passes_gather goesOn hp hlog
    next =>
      cases Option.some.inj hp
      exact .reads goesOn hlog rfl

theorem passes_body {h g : Handler} {cmd : Option Command} {bodySize : UInt32} {p : Pass}
    (goesOn : h.phase.ended = false) (hp : g.passBody cmd bodySize = some p)
    (hlog : g.log = h.log) : Passes server h p := by
  obtain ⟨appended, _, hp⟩ := Option.bind_eq_some_iff.mp hp
  exact passes_gather goesOn hp hlog

theorem passes_read {h : Handler} {data : Bytes} {p : Pass}
    (hp : h.passRead server data = some p) : Passes server h p := by
  unfold passRead at hp
  dsimp only at hp
  split at hp
  next outer =>
    have goesOn : h.phase.ended = false := by
      rw [outer]
      rfl
    split at hp
    next =>
      cases Option.some.inj hp
      exact .finished goesOn rfl rfl
    next => exact passes_header goesOn hp rfl
  next inner => exact passes_body (by rw [inner]; rfl) hp rfl
  next phase =>
    cases Option.some.inj hp
    exact .ended (by rw [phase]; rfl)
  next phase =>
    cases Option.some.inj hp
    exact .ended (by rw [phase]; rfl)

theorem passes_of_pass {h : Handler} {i : Input} {p : Pass} (hp : h.pass server i = some p) :
    Passes server h p := by
  cases i with
  | read data =>
    simp only [pass] at hp
    split at hp
    next => exact passes_read hp
    next => cases hp
  | readFailed =>
    simp only [pass] at hp
    split at hp
    next outer =>
      cases Option.some.inj hp
      exact .finished (by rw [outer]; rfl) rfl rfl
    next inner => exact passes_body (by rw [inner]; rfl) hp rfl
    next phase =>
      cases Option.some.inj hp
      exact .ended (by rw [phase]; rfl)
    next phase =>
      cases Option.some.inj hp
      exact .ended (by rw [phase]; rfl)
  | stopped =>
    simp only [pass] at hp
    split at hp
    next outer =>
      cases Option.some.inj hp
      exact .finished (by rw [outer]; rfl) rfl rfl
    next => cases hp

end Handler

end Afina
