import Afina.CommandPrograms
import Afina.HandlerPass
import Afina.HandlerPipeline

namespace Afina

open Scan

/-- What is sent for a command, behind this log that ends with its execution. -/
def Backend.reply (backend : Backend) (log : List HandlerEvent) : Bytes :=
  (backend.output log).getD (text "SERVER_ERROR") ++ text "\r\n"

/-- Calls made one after the other, each of them answered before the next. -/
def Backend.transcript (backend : Backend) (calls : List (Command × Bytes)) : List HandlerEvent :=
  calls.foldl (fun log call =>
    log ++ [.executed call.1 call.2] ++
      [.sent (backend.reply (log ++ [.executed call.1 call.2]))]) []

theorem Backend.transcript_snoc (backend : Backend) (calls : List (Command × Bytes)) (cmd : Command)
    (args : Bytes) :
    backend.transcript (calls ++ [(cmd, args)]) =
      backend.transcript calls ++ [.executed cmd args] ++
        [.sent (backend.reply (backend.transcript calls ++ [.executed cmd args]))] := by
  unfold Backend.transcript
  rw [List.foldl_append]
  rfl

/-- The calls in a log. -/
def HandlerEvent.calls (log : List HandlerEvent) : List (Command × Bytes) :=
  log.filterMap fun
    | .executed cmd args => some (cmd, args)
    | _ => none

theorem Handler.executed_eq (h : Handler) : h.executed = HandlerEvent.calls h.log := rfl

theorem HandlerEvent.calls_append (log rest : List HandlerEvent) :
    calls (log ++ rest) = calls log ++ calls rest :=
  List.filterMap_append

theorem Backend.calls_transcript (backend : Backend) (calls : List (Command × Bytes)) :
    HandlerEvent.calls (backend.transcript calls) = calls := by
  induction calls using List.reverseRecOn with
  | nil => rfl
  | append_singleton calls call ih =>
    rw [backend.transcript_snoc, HandlerEvent.calls_append, HandlerEvent.calls_append, ih]
    exact List.append_nil _

/-- No answer to these calls failed to be sent. -/
def Backend.Delivered (backend : Backend) (calls : List (Command × Bytes)) : Prop :=
  ∀ front, front ≠ [] → front <+: calls → 0 < backend.send (backend.transcript front)

theorem Backend.Delivered.snoc {backend : Backend} {calls : List (Command × Bytes)}
    {call : Command × Bytes} (h : backend.Delivered calls)
    (hlast : 0 < backend.send (backend.transcript (calls ++ [call]))) :
    backend.Delivered (calls ++ [call]) := by
  intro front hne hfront
  rcases List.prefix_concat_iff.mp (by simpa using hfront) with rfl | hfront
  · simpa using hlast
  · exact h front hne hfront

/-- What stands in the log behind the calls and their answers, by where the handler
is. A reply that could not be sent is the last event but the close. -/
inductive Closing (server : Server) (backend : Backend) (calls : List (Command × Bytes)) :
    HandlerPhase → List HandlerEvent → Prop
  | reading {phase : HandlerPhase} (delivered : backend.Delivered calls)
      (goesOn : phase.ended = false) : Closing server backend calls phase []
  | finished (delivered : backend.Delivered calls) :
      Closing server backend calls .returned server.epilogue
  | rejected (delivered : backend.Delivered calls)
      (sent : 0 < backend.send (backend.transcript calls ++ [.sent (text "PARSE ERROR\r\n")])) :
      Closing server backend calls .returned (.sent (text "PARSE ERROR\r\n") :: server.epilogue)
  | unrejected (delivered : backend.Delivered calls)
      (unsent : backend.send (backend.transcript calls ++ [.sent (text "PARSE ERROR\r\n")]) ≤ 0) :
      Closing server backend calls (.threw (text "Socket send() failed"))
        [.sent (text "PARSE ERROR\r\n"), .closed]
  | escaped (delivered : backend.Delivered calls) (what : Bytes) :
      Closing server backend calls (.threw what) []
  | unanswered {front : List (Command × Bytes)} {call : Command × Bytes}
      (last : calls = front ++ [call]) (delivered : backend.Delivered front)
      (unsent : backend.send (backend.transcript calls) ≤ 0) :
      Closing server backend calls (.threw (text "Socket send() failed")) server.onUnsent

namespace Handler

variable {server : Server} {backend : Backend}

/-- What one input adds to the log of a handler, with the phase it leaves. -/
inductive Grows (server : Server) (backend : Backend) (h t : Handler) : Prop
  | ended (ended : h.phase.ended = true) (same : t = h) : Grows server backend h t
  | reads (goesOn : h.phase.ended = false) (log : t.log = h.log) (phase : t.phase.ended = false) :
      Grows server backend h t
  | escaped (goesOn : h.phase.ended = false) (what : Bytes) (log : t.log = h.log)
      (phase : t.phase = .threw what) : Grows server backend h t
  | finished (goesOn : h.phase.ended = false) (log : t.log = h.log ++ server.epilogue)
      (phase : t.phase = .returned) : Grows server backend h t
  | rejected (goesOn : h.phase.ended = false)
      (sent : 0 < backend.send (h.log ++ [.sent (text "PARSE ERROR\r\n")]))
      (log : t.log = h.log ++ .sent (text "PARSE ERROR\r\n") :: server.epilogue)
      (phase : t.phase = .returned) : Grows server backend h t
  | unrejected (goesOn : h.phase.ended = false)
      (unsent : backend.send (h.log ++ [.sent (text "PARSE ERROR\r\n")]) ≤ 0)
      (log : t.log = h.log ++ [.sent (text "PARSE ERROR\r\n"), .closed])
      (phase : t.phase = .threw (text "Socket send() failed")) : Grows server backend h t
  | answered (goesOn : h.phase.ended = false) {com : Command} {args : Bytes}
      {log : List HandlerEvent} (before : log = h.log ++ [.executed com args])
      (sent : 0 < backend.send (log ++ [.sent (backend.reply log)]))
      (after : t.log = log ++ [.sent (backend.reply log)]) (phase : t.phase = .outer) :
      Grows server backend h t
  | unanswered (goesOn : h.phase.ended = false) {com : Command} {args : Bytes}
      {log : List HandlerEvent} (before : log = h.log ++ [.executed com args])
      (unsent : backend.send (log ++ [.sent (backend.reply log)]) ≤ 0)
      (after : t.log = log ++ [.sent (backend.reply log)] ++ server.onUnsent)
      (phase : t.phase = .threw (text "Socket send() failed")) : Grows server backend h t

theorem grows_of_pass {h : Handler} {i : Input} {p : Pass} (hp : h.pass server i = some p) :
    Grows server backend h (p.answer server backend) := by
  cases passes_of_pass hp with
  | ended ended => exact .ended ended rfl
  | reads goesOn log phase => exact .reads goesOn log phase
  | escaped goesOn log phase => exact .escaped goesOn _ log phase
  | finished goesOn log phase => exact .finished goesOn log phase
  | rejects goesOn log =>
    unfold Pass.answer sendOutput
    dsimp only
    rw [log]
    split
    next unsent => exact .unrejected goesOn unsent (List.append_assoc _ _ _) rfl
    next sent => exact .rejected goesOn (Int.not_le.mp sent) (List.append_assoc _ _ _) rfl
  | executes goesOn log =>
    unfold Pass.answer sendOutput
    dsimp only
    rw [log]
    split
    next unsent => exact .unanswered goesOn rfl unsent rfl rfl
    next sent => exact .answered goesOn rfl (Int.not_le.mp sent) rfl rfl

theorem grows_of_step {h t : Handler} {i : Input} {r : Unit}
    (hs : h.step server backend i = some (t, r)) : Grows server backend h t := by
  obtain ⟨p, hp, rfl⟩ := pass_of_step hs
  exact grows_of_pass hp

/-- The log of a handler is that of its calls and their answers, and its end. -/
def Replies (server : Server) (backend : Backend) (h : Handler) : Prop :=
  ∃ tail, h.log = backend.transcript h.executed ++ tail ∧
    Closing server backend h.executed h.phase tail

theorem Replies.of_log {t : Handler} (calls : List (Command × Bytes)) {tail : List HandlerEvent}
    (hlog : t.log = backend.transcript calls ++ tail) (hnone : HandlerEvent.calls tail = [])
    (hclosing : Closing server backend calls t.phase tail) : t.Replies server backend := by
  have hexecuted : t.executed = calls := by
    rw [executed_eq, hlog, HandlerEvent.calls_append, backend.calls_transcript, hnone,
      List.append_nil]
  rw [← hexecuted] at hlog hclosing
  exact ⟨tail, hlog, hclosing⟩

/-- As long as a handler goes on, all calls so far are answered. -/
theorem Replies.answered {h : Handler} (hr : h.Replies server backend)
    (goesOn : h.phase.ended = false) :
    h.log = backend.transcript h.executed ∧ backend.Delivered h.executed := by
  obtain ⟨tail, hlog, hclosing⟩ := hr
  generalize h.phase = phase at hclosing goesOn
  cases hclosing with
  | reading delivered _ => exact ⟨by simpa using hlog, delivered⟩
  | finished _ => cases goesOn
  | rejected _ _ => cases goesOn
  | unrejected _ _ => cases goesOn
  | escaped _ _ => cases goesOn
  | unanswered _ _ _ => cases goesOn

theorem calls_epilogue (server : Server) : HandlerEvent.calls server.epilogue = [] := by
  cases server <;> rfl

theorem calls_onUnsent (server : Server) : HandlerEvent.calls server.onUnsent = [] := by
  cases server <;> rfl

theorem Replies.grows {h t : Handler} (hr : h.Replies server backend)
    (hg : Grows server backend h t) : t.Replies server backend := by
  cases hg with
  | ended _ same =>
    rw [same]
    exact hr
  | reads goesOn log phase =>
    obtain ⟨hlog, hdelivered⟩ := hr.answered goesOn
    exact .of_log h.executed (by rw [log, hlog, List.append_nil]) rfl (.reading hdelivered phase)
  | escaped goesOn what log phase =>
    obtain ⟨hlog, hdelivered⟩ := hr.answered goesOn
    refine .of_log h.executed (by rw [log, hlog, List.append_nil]) rfl ?_
    rw [phase]
    exact .escaped hdelivered what
  | finished goesOn log phase =>
    obtain ⟨hlog, hdelivered⟩ := hr.answered goesOn
    refine .of_log h.executed (by rw [log, hlog]) (calls_epilogue server) ?_
    rw [phase]
    exact .finished hdelivered
  | rejected goesOn sent log phase =>
    obtain ⟨hlog, hdelivered⟩ := hr.answered goesOn
    rw [hlog] at sent log
    refine .of_log h.executed log (calls_epilogue server) ?_
    rw [phase]
    exact .rejected hdelivered sent
  | unrejected goesOn unsent log phase =>
    obtain ⟨hlog, hdelivered⟩ := hr.answered goesOn
    rw [hlog] at unsent log
    refine .of_log h.executed log rfl ?_
    rw [phase]
    exact .unrejected hdelivered unsent
  | @answered goesOn com args log before sent after phase =>
    obtain ⟨hlog, hdelivered⟩ := hr.answered goesOn
    have hmore := backend.transcript_snoc h.executed com args
    rw [← hlog, ← before] at hmore
    rw [← hmore] at sent after
    refine .of_log (h.executed ++ [(com, args)]) (by rw [after, List.append_nil]) rfl ?_
    exact .reading (hdelivered.snoc sent) (by rw [phase]; rfl)
  | @unanswered goesOn com args log before unsent after phase =>
    obtain ⟨hlog, hdelivered⟩ := hr.answered goesOn
    have hmore := backend.transcript_snoc h.executed com args
    rw [← hlog, ← before] at hmore
    rw [← hmore] at unsent after
    refine .of_log (h.executed ++ [(com, args)]) after (calls_onUnsent server) ?_
    rw [phase]
    exact .unanswered rfl hdelivered unsent

theorem fresh_replies (server : Server) (backend : Backend) (negative : Bool) :
    (fresh negative).Replies server backend :=
  .of_log [] rfl rfl
    (.reading (fun _ hne hpre => absurd (List.prefix_nil.mp hpre) hne) rfl)

end Handler

/-- In every run of a handler, whatever its commands give and `send` answers: every
command is answered once, before anything else, with its own output or the text
for an exception, and what a command could be told no more of is the last. -/
theorem handler_replies (server : Server) (backend : Backend) (negative : Bool)
    {history : List (Input × Unit)} {h : Handler}
    (reach : Handler.Reach server backend negative history h) : h.Replies server backend :=
  reach.invariant (Handler.fresh_replies server backend negative) fun _ _ _ _ hr hs =>
    hr.grows (Handler.grows_of_step hs)

/-- Two commands that throw; the second answer cannot be sent. -/
theorem handler_replies_unsent :
    let backend : Backend := ⟨fun _ => none, fun log => if log.length < 3 then 1 else -1⟩
    ∃ history h, Handler.Reach .blocking backend false history h ∧
      h.phase = .threw (text "Socket send() failed") ∧ h.log = backend.transcript
        [(.get [text "a"], []), (.get [text "b"], [])] ++ [.closed] ∧
      h.Replies .blocking backend := by
  intro backend
  have hcheck := PartialRun.reach_of_check (Handler.step .blocking backend) (Handler.fresh false)
    [.read (text "get a\r\n"), .read (text "get b\r\n"), .read (text "get c\r\n")]
    (fun h => h.phase = .threw (text "Socket send() failed") ∧ h.log = backend.transcript
      [(.get [text "a"], []), (.get [text "b"], [])] ++ [.closed]) (by decide)
  obtain ⟨history, h, reach, _, hphase, hlog⟩ := hcheck
  exact ⟨history, h, reach, hphase, hlog, handler_replies .blocking backend false reach⟩

end Afina
