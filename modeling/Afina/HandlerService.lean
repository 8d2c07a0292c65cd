import Afina.CommandThreads
import Afina.HandlerReplies

namespace Afina

/-- One storage and the handlers of all connections, each on a thread of its own. A
handler whose thread is in `Execute` stands where it was at its last `read`, with
the pass that waits for the command. -/
structure HandlerService (ι : Type) where
  threads : CommandThreads ι
  handler : ι → Handler
  waiting : ι → Option Pass

/-- A thread returns from a `read`, makes the next storage call of its command, or
has its result and sends it. Where something is sent, `send` gives this. -/
inductive ServiceTurn (ι : Type)
  | input (i : ι) (input : Input) (send : Int)
  | call (i : ι)
  | answer (i : ι) (send : Int)

/-- The outside of one pass. -/
def Backend.once (output : Option Bytes) (send : Int) : Backend := ⟨fun _ => output, fun _ => send⟩

/-- One outside for logs of at most this length and another for longer ones. -/
def Backend.upTo (first : Backend) (n : Nat) (later : Backend) : Backend where
  output log := if log.length ≤ n then first.output log else later.output log
  send log := if log.length ≤ n then first.send log else later.send log

namespace Handler

variable {server : Server} {backend backend' : Backend}

theorem Grows.length_le {h t : Handler} (hg : Grows server backend h t) :
    h.log.length ≤ t.log.length := by
  cases hg with
  | ended _ same => rw [same]
  | reads _ log _ => rw [log]
  | escaped _ _ log _ => rw [log]
  | finished _ log _ => simp [log]
  | rejected _ _ log _ => simp [log]
  | unrejected _ _ log _ => simp [log]
  | answered _ before _ after _ => simp [after, before]
  | unanswered _ before _ after _ => simp [after, before]

/-- What is sent is in the log, whatever comes behind. -/
theorem length_lt_sendOutput (backend : Backend) (h : Handler) (output : Bytes)
    (onFailure : List HandlerEvent) {next : Handler → Handler}
    (hnext : ∀ g : Handler, g.log.length ≤ (next g).log.length) :
    h.log.length < (h.sendOutput backend output onFailure next).log.length := by
  unfold sendOutput
  dsimp only
  split
  next => simp
  next =>
    have hle := hnext { h with log := h.log ++ [.sent output] }
    rw [List.length_append, List.length_singleton] at hle
    omega

theorem sendOutput_congr (h : Handler) (output : Bytes) (onFailure : List HandlerEvent)
    (next : Handler → Handler)
    (hsend : backend'.send (h.log ++ [.sent output]) = backend.send (h.log ++ [.sent output])) :
    h.sendOutput backend' output onFailure next = h.sendOutput backend output onFailure next := by
  unfold sendOutput
  dsimp only
  rw [hsend]

/-- A pass asks the outside about logs that are longer than that before it and at
most as long as that behind it. -/
theorem Passes.answer_congr {h : Handler} {p : Pass} (hp : Passes server h p)
    (hagree : ∀ log, h.log.length < log.length → log.length ≤ (p.answer server backend).log.length →
      backend'.output log = backend.output log ∧ backend'.send log = backend.send log) :
    p.answer server backend' = p.answer server backend := by
  cases hp with
  | ended ended => rfl
  | reads goesOn log phase => rfl
  | escaped goesOn log phase => rfl
  | finished goesOn log phase => rfl
  | @rejects t goesOn log =>
    have hlt : t.log.length < (Pass.answer server backend (.rejects t)).log.length :=
      length_lt_sendOutput backend t _ _ fun g => by simp [Handler.finish]
    refine sendOutput_congr _ _ _ _ (hagree _ ?_ ?_).2
    · simp [log]
    · rw [List.length_append, List.length_singleton]
      omega
  | @executes t com args goesOn log =>
    let g : Handler := { t with command := [], log := t.log ++ [.executed com args] }
    have hlength : g.log.length = h.log.length + 1 := by simp [g, log]
    have hlt : g.log.length < (Pass.answer server backend (.executes t com args)).log.length :=
      length_lt_sendOutput backend g _ _ fun _ => Nat.le_refl _
    have houtput := (hagree g.log (by omega) (by omega)).1
    show g.sendOutput backend' ((backend'.output g.log).getD _ ++ _) _ _ = g.sendOutput backend _ _ _
    rw [houtput]
    refine sendOutput_congr _ _ _ _ (hagree _ ?_ ?_).2
    · rw [List.length_append, List.length_singleton]
      omega
    · rw [List.length_append, List.length_singleton]
      omega

/-- A run does not ask the outside about logs that it did not come to. -/
theorem Reach.congr {negative : Bool} {history : List (Input × Unit)} {h : Handler}
    (reach : Reach server backend negative history h)
    (hagree : ∀ log : List HandlerEvent, log.length ≤ h.log.length →
      backend'.output log = backend.output log ∧ backend'.send log = backend.send log) :
    Reach server backend' negative history h := by
  induction reach with
  | start => exact .start
  | next _ hs ih =>
    have hle := (grows_of_step hs).length_le
    obtain ⟨p, hp, rfl⟩ := pass_of_step hs
    refine .next (ih fun log hlog => hagree log (by omega)) ?_
    rw [step_eq_pass, hp, Option.map_some,
      (passes_of_pass hp).answer_congr fun log _ hlog => hagree log hlog]

/-- A run goes on with an outside of its own for the next pass. -/
theorem Reach.goOn {negative : Bool} {history : List (Input × Unit)} {h : Handler}
    (reach : Reach server backend negative history h) {i : Input} {p : Pass}
    (hp : h.pass server i = some p) (later : Backend) :
    Reach server (backend.upTo h.log.length later) negative (history ++ [(i, ())])
      (p.answer server later) := by
  refine .next (reach.congr fun log hlog => ?_) ?_
  · exact ⟨if_pos hlog, if_pos hlog⟩
  · rw [step_eq_pass, hp, Option.map_some, (passes_of_pass hp).answer_congr fun log hlog _ => ?_]
    exact ⟨if_neg (Nat.not_le.mpr hlog), if_neg (Nat.not_le.mpr hlog)⟩

end Handler

namespace HandlerService

section

variable {ι : Type} [DecidableEq ι]

def initial (maxSize : Int32) (negative : ι → Bool) : HandlerService ι :=
  ⟨.initial (Store.fresh maxSize), fun i => .fresh (negative i), fun _ => none⟩

/-- One turn of one thread, with what the thread does in the storage. -/
def step (server : Server) (v : HandlerService ι) :
    ServiceTurn ι → Option (HandlerService ι × Option (CommandTurn ι × CommandMark))
  | .input i input send =>
    match v.waiting i, (v.handler i).pass server input with
    | none, some (.executes h com args) => do
      let (w, m) ← v.threads.step (.start i com args)
      pure ({ v with
        threads := w
        waiting := Function.update v.waiting i (some (.executes h com args)) },
        some (.start i com args, m))
    | none, some p =>
      some ({ v with
        handler := Function.update v.handler i (p.answer server (.once none send)) }, none)
    | _, _ => none
  | .call i => do
    let (w, m) ← v.threads.step (.call i)
    pure ({ v with threads := w }, some (.call i, m))
  | .answer i send =>
    match v.waiting i, v.threads.step (.finish i) with
    | some p, some (w, .replied com args out) =>
      some ({
        threads := w
        handler := Function.update v.handler i (p.answer server (.once (some out) send))
        waiting := Function.update v.waiting i none }, some (.finish i, .replied com args out))
    | _, _ => none

abbrev Reach (server : Server) (maxSize : Int32) (negative : ι → Bool) :
    List (ServiceTurn ι × Option (CommandTurn ι × CommandMark)) → HandlerService ι → Prop :=
  PartialRun.Reach (step server) (initial maxSize negative)

/-- All that a turn can be. -/
inductive Moves (server : Server) (v : HandlerService ι) :
    ServiceTurn ι → Option (CommandTurn ι × CommandMark) → HandlerService ι → Prop
  | passed {i : ι} {input : Input} {p : Pass} (send : Int) (reading : v.waiting i = none)
      (pass : (v.handler i).pass server input = some p)
      (alone : ∀ h com args, p ≠ .executes h com args) :
      Moves server v (.input i input send) none
        { v with handler := Function.update v.handler i (p.answer server (.once none send)) }
  | started {i : ι} {input : Input} {h : Handler} {com : Command} {args : Bytes}
      {w : CommandThreads ι} {m : CommandMark} (send : Int) (reading : v.waiting i = none)
      (pass : (v.handler i).pass server input = some (.executes h com args))
      (turn : v.threads.step (.start i com args) = some (w, m)) :
      Moves server v (.input i input send) (some (.start i com args, m))
        { v with
          threads := w
          waiting := Function.update v.waiting i (some (.executes h com args)) }
  | called {i : ι} {w : CommandThreads ι} {m : CommandMark}
      (turn : v.threads.step (.call i) = some (w, m)) :
      Moves server v (.call i) (some (.call i, m)) { v with threads := w }
  | answered {i : ι} {p : Pass} {w : CommandThreads ι} {com : Command} {args out : Bytes}
      (send : Int) (waits : v.waiting i = some p)
      (turn : v.threads.step (.finish i) = some (w, .replied com args out)) :
      Moves server v (.answer i send) (some (.finish i, .replied com args out))
        { threads := w
          handler := Function.update v.handler i (p.answer server (.once (some out) send))
          waiting := Function.update v.waiting i none }

theorem moves_of_step {server : Server} {v v' : HandlerService ι} {e : ServiceTurn ι}
    {r : Option (CommandTurn ι × CommandMark)} (hs : v.step server e = some (v', r)) :
    Moves server v e r v' := by
  cases e with
  | input i input send =>
    simp only [step] at hs
    split at hs
    next reading pass =>
      obtain ⟨⟨w, m⟩, turn, hs⟩ := Option.bind_eq_some_iff.mp hs
      cases hs
      exact .started send reading pass turn
    next p alone reading pass =>
      cases hs
      exact .passed send reading pass alone
    next => cases hs
  | call i =>
    obtain ⟨⟨w, m⟩, turn, hs⟩ := Option.bind_eq_some_iff.mp hs
    cases hs
    exact .called turn
  | answer i send =>
    simp only [step] at hs
    split at hs
    next waits turn =>
      cases hs
      exact .answered send waits turn
    next => cases hs

/-- What the threads do in the storage. -/
def turns (history : List (ServiceTurn ι × Option (CommandTurn ι × CommandMark))) :
    List (CommandTurn ι × CommandMark) :=
  history.filterMap Prod.snd

/-- What a connection was given to read. -/
def inputsOf (history : List (ServiceTurn ι × Option (CommandTurn ι × CommandMark))) (i : ι) :
    List Input :=
  history.filterMap fun
    | (.input j input _, _) => if j = i then some input else none
    | _ => none

/-- The commands of a connection that are through, each with its output. -/
def repliesTo (history : List (ServiceTurn ι × Option (CommandTurn ι × CommandMark))) (i : ι) :
    List ((Command × Bytes) × Bytes) :=
  (turns history).filterMap fun
    | (.finish j, .replied com args out) => if j = i then some ((com, args), out) else none
    | _ => none

/-- Commands and their answers, as they stand in the log of a handler. -/
def exchange (replies : List ((Command × Bytes) × Bytes)) : List HandlerEvent :=
  replies.flatMap fun e => [.executed e.1.1 e.1.2, .sent (e.2 ++ text "\r\n")]

/-- Where a connection is in what it has read: at a `read`, or in the command of
its last input. -/
inductive Due (server : Server) (h : Handler) (seen : List Input) :
    List Input → Option Pass → Option ((Command × Bytes) × Program) → Prop
  | reading : Due server h seen seen none none
  | executing {input : Input} {g : Handler} {com : Command} {args : Bytes} {rest : Program}
      (pass : h.pass server input = some (.executes g com args)) :
      Due server h seen (seen ++ [input]) (some (.executes g com args)) (some ((com, args), rest))

/-- One connection of the service is a handler with an outside of its own, and its
log has the commands that are through with their outputs. -/
structure Connected (server : Server) (negative : Bool) (inputs : List Input)
    (replies : List ((Command × Bytes) × Bytes)) (h : Handler) (waiting : Option Pass)
    (running : Option ((Command × Bytes) × Program)) : Prop where
  run : ∃ backend seen, Handler.Reach server backend negative seen h ∧
    Due server h (seen.map Prod.fst) inputs waiting running
  log : ∃ rest, h.log = exchange replies ++ rest ∧ HandlerEvent.calls rest = [] ∧
    (h.phase.ended = false → rest = [])

section

variable {server : Server} {negative : Bool} {inputs : List Input}
  {replies : List ((Command × Bytes) × Bytes)} {h : Handler}

/-- A handler that goes on has answered its commands and done nothing else. -/
theorem Connected.log_eq {waiting : Option Pass} {running : Option ((Command × Bytes) × Program)}
    (hc : Connected server negative inputs replies h waiting running)
    (goesOn : h.phase.ended = false) : h.log = exchange replies := by
  obtain ⟨rest, hlog, _, hrest⟩ := hc.log
  rw [hlog, hrest goesOn, List.append_nil]

theorem Connected.passed {running : Option ((Command × Bytes) × Program)}
    (hc : Connected server negative inputs replies h none running) {input : Input} {p : Pass}
    (hp : h.pass server input = some p) (alone : ∀ g com args, p ≠ .executes g com args)
    (send : Int) :
    Connected server negative (inputs ++ [input]) replies (p.answer server (.once none send)) none
      running := by
  refine ⟨?_, ?_⟩
  · obtain ⟨backend, seen, reach, hdue⟩ := hc.run
    cases hdue
    exact ⟨_, _, reach.goOn hp _, by rw [List.map_append]; exact .reading⟩
  · cases Handler.passes_of_pass hp with
    | ended ended => exact hc.log
    | reads goesOn log phase => exact ⟨[], by rw [List.append_nil, Pass.answer, log, hc.log_eq goesOn],
        rfl, fun _ => rfl⟩
    | escaped goesOn log phase => exact ⟨[], by rw [List.append_nil, Pass.answer, log, hc.log_eq goesOn],
        rfl, fun _ => rfl⟩
    | finished goesOn log phase =>
      refine ⟨server.epilogue, by rw [Pass.answer, log, hc.log_eq goesOn],
        Handler.calls_epilogue server, fun hno => ?_⟩
      rw [Pass.answer, phase] at hno
      cases hno
    | rejects goesOn log =>
      unfold Pass.answer Handler.sendOutput
      dsimp only
      rw [log, hc.log_eq goesOn]
      split
      next => exact ⟨_, List.append_assoc _ _ _, rfl, fun hno => by cases hno⟩
      next =>
        refine ⟨_, List.append_assoc _ _ _, ?_, fun hno => by cases hno⟩
        rw [HandlerEvent.calls_append, Handler.calls_epilogue]
        rfl
    | executes goesOn log => exact absurd rfl (alone _ _ _)

theorem Connected.started {running : Option ((Command × Bytes) × Program)}
    (hc : Connected server negative inputs replies h none running) {input : Input} {g : Handler}
    {com : Command} {args : Bytes}
    (hp : h.pass server input = some (.executes g com args)) (rest : Program) :
    Connected server negative (inputs ++ [input]) replies h (some (.executes g com args))
      (some ((com, args), rest)) := by
  obtain ⟨backend, seen, reach, hdue⟩ := hc.run
  cases hdue
  exact ⟨⟨backend, seen, reach, .executing hp⟩, hc.log⟩

theorem Connected.called {waiting : Option Pass} {task : Command × Bytes} {now : Program}
    (hc : Connected server negative inputs replies h waiting (some (task, now))) (rest : Program) :
    Connected server negative inputs replies h waiting (some (task, rest)) := by
  obtain ⟨backend, seen, reach, hdue⟩ := hc.run
  cases hdue with
  | executing pass => exact ⟨⟨backend, seen, reach, .executing pass⟩, hc.log⟩

theorem Connected.answered {p : Pass} {com : Command} {args out : Bytes}
    (hc : Connected server negative inputs replies h (some p) (some ((com, args), .done out)))
    (send : Int) :
    Connected server negative inputs (replies ++ [((com, args), out)])
      (p.answer server (.once (some out) send)) none none := by
  obtain ⟨backend, seen, reach, hdue⟩ := hc.run
  cases hdue with
  | @executing input g _ _ _ pass =>
    refine ⟨⟨_, _, reach.goOn pass _, by rw [List.map_append]; exact .reading⟩, ?_⟩
    cases Handler.passes_of_pass pass with
    | executes goesOn log =>
      have hmore : exchange (replies ++ [((com, args), out)]) =
          exchange replies ++ [.executed com args] ++ [.sent (out ++ text "\r\n")] := by
        simp [exchange]
      rw [hmore]
      unfold Pass.answer Handler.sendOutput
      dsimp only
      rw [log, hc.log_eq goesOn]
      split
      next => exact ⟨_, rfl, Handler.calls_onUnsent server, fun hno => by cases hno⟩
      next => exact ⟨[], (List.append_nil _).symm, rfl, fun _ => rfl⟩

end

/-- The storage was used by the commands of all connections, and each connection is
connected. -/
structure Serves (server : Server) (m : Int32) (negative : ι → Bool)
    (history : List (ServiceTurn ι × Option (CommandTurn ι × CommandMark)))
    (v : HandlerService ι) : Prop where
  threads : CommandThreads.Reach m (turns history) v.threads
  conns : ∀ i, Connected server (negative i) (inputsOf history i) (repliesTo history i) (v.handler i)
    (v.waiting i) (v.threads.running i)

section

variable {server : Server} {m : Int32} {negative : ι → Bool}
  {history : List (ServiceTurn ι × Option (CommandTurn ι × CommandMark))} {v v' : HandlerService ι}

theorem initial_serves (server : Server) (m : Int32) (negative : ι → Bool) :
    Serves server m negative [] (initial m negative) := by
  refine ⟨.start, fun i => ⟨⟨.once none 0, [], .start, .reading⟩, [], ?_, rfl, fun _ => rfl⟩⟩
  rfl

theorem Serves.step (hv : Serves server m negative history v) {e : ServiceTurn ι}
    {r : Option (CommandTurn ι × CommandMark)} (hm : Moves server v e r v') :
    Serves server m negative (history ++ [(e, r)]) v' := by
  cases hm with
  | @passed i input p send reading pass alone =>
    refine ⟨by simpa [turns] using hv.threads, fun j => ?_⟩
    have hconn := hv.conns j
    by_cases hj : j = i
    · subst hj
      rw [reading] at hconn
      simpa [inputsOf, repliesTo, turns, reading] using hconn.passed pass alone send
    · simpa [inputsOf, repliesTo, turns, hj, Ne.symm hj] using hconn
  | @started i input h com args w mark send reading pass turn =>
    refine ⟨by simpa [turns] using hv.threads.next turn, fun j => ?_⟩
    have hconn := hv.conns j
    by_cases hj : j = i
    · subst hj
      rw [reading] at hconn
      cases CommandThreads.moves_of_step turn with
      | started free cmd args =>
        simpa [inputsOf, repliesTo, turns, CommandThreads.become] using hconn.started pass _
    · rw [← CommandThreads.running_of_ne turn hj] at hconn
      simpa [inputsOf, repliesTo, turns, hj, Ne.symm hj] using hconn
  | @called i w mark turn =>
    refine ⟨by simpa [turns] using hv.threads.next turn, fun j => ?_⟩
    have hconn := hv.conns j
    by_cases hj : j = i
    · subst hj
      cases CommandThreads.moves_of_step turn with
      | called at_call result =>
        rw [at_call] at hconn
        simpa [inputsOf, repliesTo, turns, CommandThreads.become] using hconn.called _
    · rw [← CommandThreads.running_of_ne turn hj] at hconn
      simpa [inputsOf, repliesTo, turns] using hconn
  | @answered i p w com args out send waits turn =>
    refine ⟨by simpa [turns] using hv.threads.next turn, fun j => ?_⟩
    have hconn := hv.conns j
    by_cases hj : j = i
    · subst hj
      cases CommandThreads.moves_of_step turn with
      | replied at_end =>
        rw [at_end, waits] at hconn
        simpa [inputsOf, repliesTo, turns, CommandThreads.become] using hconn.answered send
    · rw [← CommandThreads.running_of_ne turn hj] at hconn
      simpa [inputsOf, repliesTo, turns, hj, Ne.symm hj] using hconn

theorem Reach.serves (reach : Reach server m negative history v) :
    Serves server m negative history v := by
  induction reach with
  | start => exact initial_serves server m negative
  | next _ hs ih => exact ih.step (moves_of_step hs)

end

end

end HandlerService

open HandlerService in
/-- Whatever the threads of the connections do to each other in the storage, each of
them is a handler that was alone with some outside, so what holds of a handler for
every outside holds of it. Its log has its commands in order, each with the output
that the command gave in the storage, and each output reports only values that the
commands of some connections have put under the keys asked for. -/
theorem connections_served {ι : Type} [DecidableEq ι] (server : Server) {m : Int32} (hm : 0 ≤ m)
    {negative : ι → Bool} {history : List (ServiceTurn ι × Option (CommandTurn ι × CommandMark))}
    {v : HandlerService ι} (reach : HandlerService.Reach server m negative history v) (i : ι) :
    Connected server (negative i) (inputsOf history i) (repliesTo history i) (v.handler i)
      (v.waiting i) (v.threads.running i) ∧
    ∀ e ∈ repliesTo history i,
      Faithful (Origin (CommandThreads.commands (turns history))) e.1.1 e.2 := by
  have hserves := reach.serves
  refine ⟨hserves.conns i, fun e he => ?_⟩
  obtain ⟨⟨turn, mark⟩, hmem, hreply⟩ := List.mem_filterMap.mp he
  split at hreply
  next j com args out heq =>
    split at hreply
    next hj =>
      cases heq
      cases hreply
      exact (CommandThreads.Reach.traced hm hserves.threads).replies _ _ _ _ hmem
    next => cases hreply
  next => cases hreply

def appendRace : List (ServiceTurn Bool) :=
  [.input false (.read (text "set k 0 0 1\r\nv\r\n")) 1, .call false, .answer false 1,
    .input false (.read (text "append k 0 0 1\r\n1\r\n")) 1,
    .input true (.read (text "append k 0 0 1\r\n2\r\n")) 1, .call false, .call true, .call true,
    .call false, .answer false 1, .answer true 1, .input true (.read (text "get k\r\n")) 1,
    .call true, .answer true 0]

open HandlerService in
/-- Two clients append to one key at the same time, and one of them is gone when it
is told what became of it. -/
theorem connections_served_race :
    ∃ history v, HandlerService.Reach .blocking 100 (fun _ => false) history v ∧
      history.map Prod.fst = appendRace ∧
      (v.handler true).sent = [text "STORED\r\n", text "VALUE k 0 2\r\nv1\r\nEND\r\n"] ∧
      (v.handler true).phase = .threw (text "Socket send() failed") ∧
      Connected .blocking false (inputsOf history true) (repliesTo history true) (v.handler true)
        (v.waiting true) (v.threads.running true) ∧
      ∀ e ∈ repliesTo history true,
        Faithful (Origin (CommandThreads.commands (turns history))) e.1.1 e.2 := by
  obtain ⟨history, v, reach, hcalls, hsent, hphase⟩ := PartialRun.reach_of_check
    (HandlerService.step .blocking) (HandlerService.initial 100 fun _ => false) appendRace
    (fun v => (v.handler true).sent =
        [text "STORED\r\n", text "VALUE k 0 2\r\nv1\r\nEND\r\n"] ∧
      (v.handler true).phase = .threw (text "Socket send() failed")) (by decide)
  exact ⟨history, v, reach, hcalls, hsent, hphase,
    connections_served .blocking (by decide) reach true⟩

end Afina
