import Afina.CommandPrograms
import Afina.StoreHistory

namespace Afina

/-- The threads of a server that execute commands on one storage: the workers, or
one thread for each connection. Of a thread that is in a command there is the
command and what it has left to do. -/
structure CommandThreads (ι : Type) where
  store : Store
  running : ι → Option ((Command × Bytes) × Program)

inductive CommandTurn (ι : Type)
  | start (i : ι) (cmd : Command) (args : Bytes)
  | call (i : ι)
  | finish (i : ι)
deriving DecidableEq

def CommandTurn.thread {ι : Type} : CommandTurn ι → ι
  | .start i _ _ => i
  | .call i => i
  | .finish i => i

/-- What is seen of a turn. -/
inductive CommandMark
  | started
  | called (op : Op) (r : Reply)
  | replied (cmd : Command) (args : Bytes) (out : Bytes)
deriving DecidableEq

namespace CommandThreads

section

variable {ι : Type} [DecidableEq ι]

def initial (s : Store) : CommandThreads ι := ⟨s, fun _ => none⟩

def become (w : CommandThreads ι) (i : ι) (p : Option ((Command × Bytes) × Program)) :
    CommandThreads ι :=
  { w with running := Function.update w.running i p }

/-- One turn of one thread: it takes up a command, makes the next storage call of
its command, or replies. -/
def step (w : CommandThreads ι) : CommandTurn ι → Option (CommandThreads ι × CommandMark)
  | .start i cmd args =>
    match w.running i with
    | none => some (w.become i (some ((cmd, args), cmd.program args)), .started)
    | some _ => none
  | .call i =>
    match w.running i with
    | some (task, .call op next) => do
      let (s, r) ← w.store.step op
      pure ({ w.become i (some (task, next r)) with store := s }, .called op r)
    | _ => none
  | .finish i =>
    match w.running i with
    | some ((cmd, args), .done out) => some (w.become i none, .replied cmd args out)
    | _ => none

abbrev Reach (maxSize : Int32) : List (CommandTurn ι × CommandMark) → CommandThreads ι → Prop :=
  PartialRun.Reach step (initial (Store.fresh maxSize))

/-- All that a turn can be. -/
inductive Moves (w : CommandThreads ι) :
    CommandTurn ι → CommandMark → CommandThreads ι → Prop
  | started {i : ι} (free : w.running i = none) (cmd : Command) (args : Bytes) :
      Moves w (.start i cmd args) .started (w.become i (some ((cmd, args), cmd.program args)))
  | called {i : ι} {task : Command × Bytes} {op : Op} {next : Reply → Program} {s : Store} {r : Reply}
      (at_call : w.running i = some (task, .call op next)) (result : w.store.step op = some (s, r)) :
      Moves w (.call i) (.called op r) { w.become i (some (task, next r)) with store := s }
  | replied {i : ι} {cmd : Command} {args out : Bytes}
      (at_end : w.running i = some ((cmd, args), .done out)) :
      Moves w (.finish i) (.replied cmd args out) (w.become i none)

theorem moves_of_step {w w' : CommandThreads ι} {e : CommandTurn ι} {m : CommandMark}
    (h : w.step e = some (w', m)) : Moves w e m w' := by
  cases e with
  | start i cmd args =>
    simp only [step] at h
    split at h
    next hfree => cases h; exact .started hfree cmd args
    next => cases h
  | call i =>
    simp only [step] at h
    split at h
    next task op next hat =>
      obtain ⟨⟨s, r⟩, hs, h⟩ := Option.bind_eq_some_iff.mp h
      cases h
      exact .called hat hs
    next => cases h
  | finish i =>
    simp only [step] at h
    split at h
    next cmd args out hat => cases h; exact .replied hat
    next => cases h

/-- A turn in the storage leaves the other threads where they are. -/
theorem running_of_ne {w w' : CommandThreads ι} {e : CommandTurn ι} {mark : CommandMark}
    (hs : w.step e = some (w', mark)) {j : ι} (hj : j ≠ e.thread) : w'.running j = w.running j := by
  cases moves_of_step hs with
  | started free cmd args => exact Function.update_of_ne hj _ _
  | called at_call result => exact Function.update_of_ne hj _ _
  | replied at_end => exact Function.update_of_ne hj _ _

/-- The storage calls of all threads, in their order. -/
def calls (history : List (CommandTurn ι × CommandMark)) : List (Op × Reply) :=
  history.filterMap fun
    | (_, .called op r) => some (op, r)
    | _ => none

/-- The commands that were taken up. -/
def commands (history : List (CommandTurn ι × CommandMark)) : List (Command × Bytes) :=
  history.filterMap fun
    | (.start _ cmd args, _) => some (cmd, args)
    | _ => none

theorem Reach.store {m : Int32} {history : List (CommandTurn ι × CommandMark)}
    {w : CommandThreads ι} (reach : Reach m history w) : Store.Reach m (calls history) w.store := by
  induction reach with
  | start => exact .start
  | next _ hs ih =>
    cases moves_of_step hs with
    | started free cmd args => simpa [calls, become] using ih
    | called at_call result => simpa [calls] using ih.next result
    | replied at_end => simpa [calls, become] using ih

end

end CommandThreads

/-- The values that some commands may leave under a key: the argument of one that
stores its argument, or a value that was there with the argument of an `append`
behind it. -/
inductive Origin (commands : List (Command × Bytes)) : Bytes → Bytes → Prop
  | argument {kind : InsertKind} {c : InsertCommand} {args : Bytes}
      (sent : (.insert kind c, args) ∈ commands) (whole : kind ≠ .append) :
      Origin commands c.key args
  | appended {c : InsertCommand} {args value : Bytes}
      (sent : (.insert .append c, args) ∈ commands) (before : Origin commands c.key value) :
      Origin commands c.key (value ++ args)

theorem Origin.mono {commands commands' : List (Command × Bytes)} (hsub : commands ⊆ commands')
    {k v : Bytes} (h : Origin commands k v) : Origin commands' k v := by
  induction h with
  | argument sent whole => exact .argument (hsub sent) whole
  | appended sent _ ih => exact .appended (hsub sent) ih

/-- What a command may reply: a `get` reports requested keys, in their order, with
values that are theirs. -/
def Faithful (O : Bytes → Bytes → Prop) : Command → Bytes → Prop
  | .get keys, out => ∃ entries, out = getReply entries ∧
      List.Sublist (entries.map Prod.fst) keys ∧ ∀ e ∈ entries, O e.1 e.2
  | .insert _ _, out => out = stored ∨ out = notStored
  | .stats, out => out = text "END"

theorem Faithful.mono {O O' : Bytes → Bytes → Prop} (hsub : ∀ k v, O k v → O' k v) {cmd : Command}
    {out : Bytes} (h : Faithful O cmd out) : Faithful O' cmd out := by
  cases cmd with
  | get keys =>
    obtain ⟨entries, hout, hkeys, hvalues⟩ := h
    exact ⟨entries, hout, hkeys, fun e he => hsub _ _ (hvalues e he)⟩
  | insert kind c => exact h
  | stats => exact h

def Op.Writes (op : Op) (k v : Bytes) : Prop := op = .put k v ∨ op = .putIfAbsent k v ∨ op = .set k v

/-- As long as a program finds values of `O` only, it writes and reports only
such. -/
def Program.Sound (O : Bytes → Bytes → Prop) (cmd : Command) : Program → Prop
  | .done out => Faithful O cmd out
  | .call op next => (∀ k v, op.Writes k v → O k v) ∧
      ∀ r, (∀ v, r = .value (some v) → O op.key v) → (next r).Sound O cmd

theorem Program.ofGet_sound {O : Bytes → Bytes → Prop} (keys seen : List Bytes)
    (entries : List (Bytes × Bytes)) (hkeys : List.Sublist (entries.map Prod.fst) seen)
    (hvalues : ∀ e ∈ entries, O e.1 e.2) :
    (Program.ofGet keys (entries.flatMap fun e => getItem e.1 e.2)).Sound O (.get (seen ++ keys)) := by
  induction keys generalizing seen entries with
  | nil => exact ⟨entries, rfl, by simpa using hkeys, hvalues⟩
  | cons key keys ih =>
    refine ⟨?_, ?_⟩
    · rintro k v (h | h | h) <;> cases h
    · intro r hr
      have hassoc : seen ++ key :: keys = (seen ++ [key]) ++ keys := by simp
      have hmiss : (ofGet keys (entries.flatMap fun e => getItem e.1 e.2)).Sound O
          (.get (seen ++ key :: keys)) := by
        rw [hassoc]
        exact ih _ _ (hkeys.trans (List.sublist_append_left _ _)) hvalues
      dsimp only
      split
      next value =>
        have hflat : (entries.flatMap fun e => getItem e.1 e.2) ++ getItem key value =
            (entries ++ [(key, value)]).flatMap fun e => getItem e.1 e.2 := by simp
        rw [hassoc, hflat]
        refine ih _ _ (by simpa using hkeys.append (List.Sublist.refl [key])) fun e he => ?_
        rcases List.mem_append.mp he with he | he
        · exact hvalues e he
        · rw [List.mem_singleton.mp he]
          exact hr value rfl
      next => exact hmiss

/-- Every command is sound for the values that it and other commands leave. -/
theorem Command.program_sound {commands : List (Command × Bytes)} {cmd : Command} {args : Bytes}
    (hsent : (cmd, args) ∈ commands) : (cmd.program args).Sound (Origin commands) cmd := by
  have hwrites : ∀ {op : Op} {k v : Bytes}, op.Writes k v → op.key = k ∧ op.value = v := by
    rintro op k v (h | h | h) <;> rw [h] <;> exact ⟨rfl, rfl⟩
  have hreads : ∀ {k key v : Bytes}, ¬ (Op.get k).Writes key v := by
    rintro k key v (h | h | h) <;> cases h
  cases cmd with
  | insert kind c =>
    cases kind with
    | set =>
      refine ⟨fun k v hw => ?_, fun r _ => Or.inl rfl⟩
      obtain ⟨rfl, rfl⟩ := hwrites hw
      exact .argument hsent (by decide)
    | add =>
      refine ⟨fun k v hw => ?_, fun r _ => ?_⟩
      · obtain ⟨rfl, rfl⟩ := hwrites hw
        exact .argument hsent (by decide)
      · show Faithful _ _ (if r = .status true then stored else notStored)
        split
        · exact Or.inl rfl
        · exact Or.inr rfl
    | append =>
      refine ⟨fun k v hw => absurd hw hreads, fun r hr => ?_⟩
      unfold Program.ofAppend
      split
      next value =>
        refine ⟨fun k v hw => ?_, fun r _ => Or.inl rfl⟩
        obtain ⟨rfl, rfl⟩ := hwrites hw
        exact .appended hsent (hr value rfl)
      next => exact Or.inr rfl
    | replace =>
      refine ⟨fun k v hw => absurd hw hreads, fun r _ => ?_⟩
      unfold Program.ofReplace
      split
      next value =>
        refine ⟨fun k v hw => ?_, fun r _ => Or.inl rfl⟩
        obtain ⟨rfl, rfl⟩ := hwrites hw
        exact .argument hsent (by decide)
      next => exact Or.inr rfl
  | get keys => exact Program.ofGet_sound keys [] [] (List.Sublist.refl _) (by simp)
  | stats => rfl

namespace CommandThreads

section

variable {ι : Type} [DecidableEq ι] {m : Int32} {history : List (CommandTurn ι × CommandMark)}
  {w w' : CommandThreads ι} {e : CommandTurn ι} {mark : CommandMark}

/-- All calls that were made and all commands under way, whatever commands are
still to come, keep to the values that the commands may leave. -/
structure Traced (history : List (CommandTurn ι × CommandMark)) (w : CommandThreads ι) : Prop where
  writes : ∀ e ∈ calls history, ∀ k v, e.1.Writes k v → Origin (commands history) k v
  programs : ∀ i cmd args p, w.running i = some ((cmd, args), p) →
    ∀ more, p.Sound (Origin (commands history ++ more)) cmd
  replies : ∀ i cmd args out, (.finish i, .replied cmd args out) ∈ history →
    Faithful (Origin (commands history)) cmd out

theorem Traced.contents (hm : 0 ≤ m) (reach : Reach m history w) (h : Traced history w) {k v : Bytes}
    (hv : w.store.cache.contents k = some v) : Origin (commands history) k v := by
  obtain ⟨⟨before, e, after, hsplit, hstores, _⟩, _⟩ := Store.Reach.explained hm reach.store k v hv
  refine h.writes e (by simp [hsplit]) k v ?_
  rcases hstores with rfl | rfl | rfl
  · exact Or.inl rfl
  · exact Or.inr (Or.inl rfl)
  · exact Or.inr (Or.inr rfl)

theorem found_contents {s t : Store} (h : s.Valid) {op : Op} {v : Bytes}
    (hs : s.step op = some (t, .value (some v))) : s.cache.contents op.key = some v := by
  cases op with
  | get k =>
    obtain ⟨u, hget, _⟩ := h.get_spec k
    simp only [Store.step, hget, Option.map_some, Option.some.injEq, Prod.mk.injEq,
      Reply.value.injEq] at hs
    exact hs.2
  | put k v => obtain ⟨_, _, he⟩ := Option.map_eq_some_iff.mp hs; cases he
  | putIfAbsent k v => obtain ⟨_, _, he⟩ := Option.map_eq_some_iff.mp hs; cases he
  | set k v => obtain ⟨_, _, he⟩ := Option.map_eq_some_iff.mp hs; cases he
  | delete k => obtain ⟨_, _, he⟩ := Option.map_eq_some_iff.mp hs; cases he

theorem become_cases {i j : ι} {p q : Option ((Command × Bytes) × Program)}
    (h : (w.become i p).running j = q) : p = q ∨ w.running j = q := by
  by_cases hj : j = i
  · subst hj
    exact Or.inl (by simpa [become] using h)
  · exact Or.inr (by simpa [become, hj] using h)

theorem Traced.started (h : Traced history w) (i : ι) (cmd : Command) (args : Bytes) :
    Traced (history ++ [(.start i cmd args, .started)])
      (w.become i (some ((cmd, args), cmd.program args))) := by
  have hcommands : commands (history ++ [(.start i cmd args, .started)]) =
      commands history ++ [(cmd, args)] := by simp [commands]
  have hcalls : calls (history ++ [(.start i cmd args, .started)]) = calls history := by
    simp [calls]
  have hmono : ∀ k v, Origin (commands history) k v →
      Origin (commands history ++ [(cmd, args)]) k v :=
    fun k v => Origin.mono (List.subset_append_left _ _)
  refine ⟨?_, ?_, ?_⟩
  · rw [hcommands, hcalls]
    exact fun e he k v hw => hmono k v (h.writes e he k v hw)
  · intro j cmd' args' p hj more
    rw [hcommands]
    rcases become_cases hj with hnew | hold
    · cases hnew
      exact Command.program_sound (by simp)
    · rw [List.append_assoc]
      exact h.programs j cmd' args' p hold _
  · intro j cmd' args' out hmem
    rw [hcommands]
    exact (h.replies j cmd' args' out (by simpa using hmem)).mono hmono

theorem Traced.called (hm : 0 ≤ m) (reach : Reach m history w) (h : Traced history w) {i : ι}
    {task : Command × Bytes} {op : Op} {next : Reply → Program} {s : Store} {r : Reply}
    (at_call : w.running i = some (task, .call op next)) (result : w.store.step op = some (s, r)) :
    Traced (history ++ [(.call i, .called op r)])
      { w.become i (some (task, next r)) with store := s } := by
  have hcommands : commands (history ++ [(.call i, .called op r)]) = commands history := by
    simp [commands]
  have hcalls : calls (history ++ [(.call i, .called op r)]) = calls history ++ [(op, r)] := by
    simp [calls]
  have hfound : ∀ v, r = .value (some v) → Origin (commands history) op.key v := by
    rintro v rfl
    exact h.contents hm reach (found_contents (Store.Reach.valid hm reach.store) result)
  refine ⟨?_, ?_, ?_⟩
  · rw [hcommands, hcalls]
    intro e he k v hw
    rcases List.mem_append.mp he with he | he
    · exact h.writes e he k v hw
    · rw [List.mem_singleton.mp he] at hw
      have hsound := h.programs i _ _ _ at_call []
      rw [List.append_nil] at hsound
      exact hsound.1 k v hw
  · intro j cmd' args' p hj more
    rw [hcommands]
    rcases become_cases hj with hnew | hold
    · cases hnew
      refine (h.programs i _ _ _ at_call more).2 r fun v hv => ?_
      exact (hfound v hv).mono (List.subset_append_left _ _)
    · exact h.programs j cmd' args' p hold more
  · intro j cmd' args' out hmem
    rw [hcommands]
    exact h.replies j cmd' args' out (by simpa using hmem)

theorem Traced.replied (h : Traced history w) {i : ι} {cmd : Command} {args out : Bytes}
    (at_end : w.running i = some ((cmd, args), .done out)) :
    Traced (history ++ [(.finish i, .replied cmd args out)]) (w.become i none) := by
  have hcommands : commands (history ++ [(.finish i, .replied cmd args out)]) =
      commands history := by simp [commands]
  have hcalls : calls (history ++ [(.finish i, .replied cmd args out)]) = calls history := by
    simp [calls]
  refine ⟨?_, ?_, ?_⟩
  · rw [hcommands, hcalls]
    exact h.writes
  · intro j cmd' args' p hj more
    rw [hcommands]
    rcases become_cases hj with hnew | hold
    · cases hnew
    · exact h.programs j cmd' args' p hold more
  · intro j cmd' args' out' hmem
    rw [hcommands]
    rcases List.mem_append.mp hmem with hmem | hmem
    · exact h.replies j cmd' args' out' hmem
    · cases List.mem_singleton.mp hmem
      have hsound := h.programs i _ _ _ at_end []
      rwa [List.append_nil] at hsound

theorem Traced.step (hm : 0 ≤ m) (reach : Reach m history w) (h : Traced history w)
    (hmove : Moves w e mark w') : Traced (history ++ [(e, mark)]) w' := by
  cases hmove with
  | started free cmd args => exact h.started _ cmd args
  | called at_call result => exact h.called hm reach at_call result
  | replied at_end => exact h.replied at_end

theorem Reach.traced (hm : 0 ≤ m) (reach : Reach m history w) : Traced history w := by
  induction reach with
  | start =>
    refine ⟨fun e he => by simp [calls] at he, ?_, fun i cmd args out hmem => by simp at hmem⟩
    intro i cmd args p hp
    cases hp
  | next reach hs ih => exact ih.step hm reach (moves_of_step hs)

end

end CommandThreads

/-- However the storage calls of the commands of all threads interleave: what the
storage holds under a key was put together from arguments of commands on that key,
and each reply reports only such values, under keys that were asked for. -/
theorem values_have_origin {ι : Type} [DecidableEq ι] {m : Int32} (hm : 0 ≤ m)
    {history : List (CommandTurn ι × CommandMark)} {w : CommandThreads ι}
    (reach : CommandThreads.Reach m history w) :
    (∀ k v, w.store.cache.contents k = some v →
      Origin (CommandThreads.commands history) k v) ∧
    ∀ i cmd args out, (.finish i, .replied cmd args out) ∈ history →
      Faithful (Origin (CommandThreads.commands history)) cmd out := by
  have htraced := CommandThreads.Reach.traced hm reach
  exact ⟨fun k v hv => htraced.contents hm reach hv, htraced.replies⟩

/-- Two appends that race with each other and with a reader. -/
theorem values_have_origin_race :
    ∃ history w, CommandThreads.Reach (ι := Fin 3) 100 history w ∧
      w.store.cache.contents (text "k") = some (text "v2") ∧
      (.finish 2, .replied (.get [text "k"]) [] (text "VALUE k 0 2\r\nv1\r\nEND")) ∈ history ∧
      (∀ k v, w.store.cache.contents k = some v →
        Origin (CommandThreads.commands history) k v) ∧
      ∀ i cmd args out, (.finish i, .replied cmd args out) ∈ history →
        Faithful (Origin (CommandThreads.commands history)) cmd out := by
  have hcheck : ((PartialRun.run CommandThreads.step
      (CommandThreads.initial (Store.fresh 100) : CommandThreads (Fin 3))
      [.start 0 (.insert .set ⟨text "k", 0, 0⟩) (text "v"), .call 0, .finish 0,
        .start 0 (.insert .append ⟨text "k", 0, 0⟩) (text "1"),
        .start 1 (.insert .append ⟨text "k", 0, 0⟩) (text "2"),
        .start 2 (.get [text "k"]) [], .call 0, .call 1, .call 0, .call 2, .call 1,
        .finish 2]).map fun r =>
      decide (r.1.store.cache.contents (text "k") = some (text "v2") ∧
        (CommandTurn.finish 2, CommandMark.replied (.get [text "k"]) []
          (text "VALUE k 0 2\r\nv1\r\nEND")) ∈ r.2)) = some true := by decide
  obtain ⟨⟨w, history⟩, hrun, hboth⟩ := Option.map_eq_some_iff.mp hcheck
  obtain ⟨hvalue, hreply⟩ := of_decide_eq_true hboth
  have reach := PartialRun.run_reach hrun
  exact ⟨history, w, reach, hvalue, hreply, values_have_origin (by decide) reach⟩

end Afina
