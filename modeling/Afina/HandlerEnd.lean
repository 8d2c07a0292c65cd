import Afina.HandlerEscape

namespace Afina

open Scan

theorem takeWhile_zeros (data : Bytes) (k : Nat) :
    (data ++ List.replicate k 0).takeWhile (· != 0) = data.takeWhile (· != 0) := by
  have hzeros : (List.replicate k (0 : UInt8)).takeWhile (· != 0) = [] := by
    cases k <;> simp [List.replicate_succ]
  rw [List.takeWhile_append, hzeros, List.append_nil]
  split
  next hall => exact (List.IsPrefix.eq_of_length (List.takeWhile_prefix _) hall).symm
  next => rfl

theorem overwrite_zeros (data : Bytes) :
    overwrite (List.replicate bufSize 0) 0 data =
      data ++ List.replicate (bufSize - data.length) 0 := by
  simp [overwrite]

/-- In a buffer that was cleared a read leaves its bytes up to the first zero. -/
theorem cString_zeros {data appended : Bytes}
    (h : cString (overwrite (List.replicate bufSize 0) 0 data) = some appended) :
    appended = data.takeWhile (· != 0) := by
  rw [overwrite_zeros] at h
  unfold cString at h
  split at h
  next =>
    cases Option.some.inj h
    exact takeWhile_zeros _ _
  next => cases h

namespace Handler

variable {server : Server} {backend : Backend}

/-- Between two passes nothing is left of the last one, and the inner loop has a
command for which bytes are missing. -/
structure Tidy (h : Handler) : Prop where
  outer : h.phase = .outer → h.command = [] ∧ h.buf = List.replicate bufSize 0
  inner : ∀ cmd bodySize, h.phase = .inner cmd bodySize → cmd.isSome ∧ h.Lacks bodySize

theorem fresh_tidy (negative : Bool) : (fresh negative).Tidy :=
  ⟨fun _ => ⟨rfl, rfl⟩, by simp [fresh]⟩

theorem gather_tidy (sends : ∀ log, 0 < backend.send log) {h t : Handler} {cmd : Option Command}
    {bodySize : UInt32} (hcmd : cmd.isSome)
    (hs : h.gather server backend cmd bodySize = some t) : t.Tidy := by
  rcases gather_cases sends hs with ⟨hlacks, rfl⟩ | ⟨_, com, _, rfl⟩
  · refine ⟨by simp, fun cmd' bodySize' hinner => ?_⟩
    cases hinner
    exact ⟨hcmd, hlacks⟩
  · exact ⟨fun _ => ⟨rfl, rfl⟩, by simp [answered, nextPass]⟩

theorem parsed_of_incomplete {h : Handler} {data : Bytes} {p : Parser} {parsed : Nat}
    (call : h.parses data = some (.returned p parsed)) (incomplete : p.parseComplete = false) :
    parsed = data.length := by
  obtain ⟨appended, _, hparse⟩ := Option.bind_eq_some_iff.mp call
  exact Parser.parseChars_incomplete hparse incomplete

theorem Tidy.of_move (sends : ∀ log, 0 < backend.send log) {h t : Handler} {i : Input}
    (hg : h.Guarded server) (ht : h.Tidy) (hm : Moves server backend h i t) : t.Tidy := by
  cases hm with
  | ended _ => exact ht
  | finished _ _ => exact ⟨by simp [finish], by simp [finish]⟩
  | rejected _ _ _ => exact ⟨by simp [finish], by simp [finish]⟩
  | @waited data appended p parsed outer string call incomplete =>
    obtain ⟨hcommand, hbuf⟩ := ht.outer outer
    have hparsed := parsed_of_incomplete call incomplete
    rw [hbuf] at string
    have happended := cString_zeros string
    refine ⟨fun _ => ⟨?_, rfl⟩, by simp [nextPass]⟩
    have hle : appended.length ≤ data.length := by
      rw [happended]
      exact (List.takeWhile_prefix _).length_le
    simp only [nextPass, hcommand, List.nil_append, hparsed]
    exact List.drop_eq_nil_of_le hle
  | escaped _ _ _ _ _ => exact ⟨by simp, by simp⟩
  | @began data _ p parsed cmd bodySize _ outer _ call complete built gathers =>
    refine gather_tidy sends ?_ gathers
    have hnamed := parses_named (hg.parser (by rw [outer]; rfl)).1 call
    exact Parser.build_ok_isSome (hnamed.complete complete) built
  | gathered inner _ _ gathers => exact gather_tidy sends (ht.inner _ _ inner).1 gathers

theorem after_tidy (sends : ∀ log, 0 < backend.send log) {negative : Bool} {h : Handler}
    {inputs : List Input} (ha : (fresh negative).after server backend inputs = some h) :
    h.Guarded server ∧ h.Tidy := by
  refine after_invariant (I := fun h => h.Guarded server ∧ h.Tidy) (fun h i _ t hi hs => ?_)
    ⟨fresh_guarded server negative, fresh_tidy negative⟩ ha
  have hm := moves_of_step sends hs
  exact ⟨(hi.1.of_move sends hm).1, hi.2.of_move sends hi.1 hm⟩

theorem parses_nil_not_threw {h : Handler} {p : Parser} {e : ParseError} {pos : Nat} :
    h.parses [] ≠ some (.threw p e pos) := by
  intro call
  obtain ⟨appended, _, hparse⟩ := Option.bind_eq_some_iff.mp call
  have hnone := Parser.parse_of_parseChars hparse
  rw [List.length_nil, List.take_zero] at hnone
  cases hnone

/-- `ConnectionWork` does not return at the end of the stream. -/
theorem Moves.not_returned (sends : ∀ log, 0 < backend.send log) {h t : Handler}
    (hm : Moves .nonBlocking backend h (.read []) t) (hr : h.phase ≠ .returned) :
    t.phase ≠ .returned := by
  cases hm with
  | ended _ => exact hr
  | finished _ quiet => simp at quiet
  | rejected _ _ call => exact absurd call parses_nil_not_threw
  | waited _ _ _ _ => simp [nextPass]
  | escaped _ _ _ _ _ => simp
  | began _ _ _ _ _ gathers =>
    rcases gather_cases sends gathers with ⟨_, rfl⟩ | ⟨_, com, _, rfl⟩ <;> simp
  | gathered _ _ _ gathers =>
    rcases gather_cases sends gathers with ⟨_, rfl⟩ | ⟨_, com, _, rfl⟩ <;> simp

theorem Moves.threw {h t : Handler} {i : Input} (hm : Moves server backend h i t) {what : Bytes}
    (hw : h.phase = .threw what) : t = h := by
  cases hm with
  | ended _ => rfl
  | finished outer _ => simp [hw] at outer
  | rejected outer _ _ => simp [hw] at outer
  | waited outer _ _ _ => simp [hw] at outer
  | escaped outer _ _ _ _ => simp [hw] at outer
  | began outer _ _ _ _ _ => simp [hw] at outer
  | gathered inner _ _ _ => simp [hw] at inner

theorem executed_after (sends : ∀ log, 0 < backend.send log) {h t : Handler} {inputs : List Input}
    (ha : h.after server backend inputs = some t) : h.executed <+: t.executed :=
  after_invariant (I := fun u => h.executed <+: u.executed)
    (fun _ _ _ _ hi hs => hi.trans ((moves_of_step sends hs).executed sends))
    (List.prefix_refl _) ha

/-- The inner loop goes on until its command is executed. -/
theorem inner_of_executed (sends : ∀ log, 0 < backend.send log) {h t : Handler}
    {inputs : List Input} {cmd : Option Command} {bodySize : UInt32}
    (inner : h.phase = .inner cmd bodySize) (ha : h.after server backend inputs = some t)
    (he : t.executed = h.executed) : t.phase = .inner cmd bodySize := by
  induction inputs generalizing h with
  | nil =>
    cases Option.some.inj ha
    exact inner
  | cons i rest ih =>
    obtain ⟨mid, hs, ha⟩ := after_cons_eq_some ha
    have hlater := executed_after sends ha
    obtain ⟨buf, appended, gathers⟩ := (moves_of_step sends hs).of_inner inner
    rcases executed_of_gather sends gathers with ⟨hphase, hsame⟩ | ⟨call, hmore⟩
    · exact ih hphase ha (he.trans hsame.symm)
    · have hlen := hlater.length_le
      rw [he, hmore, List.length_append, List.length_singleton] at hlen
      exact absurd hlen (Nat.not_succ_le_self _)

/-- Successive reads and, behind them, so many at the end of the stream. -/
def streamed (reads : List Bytes) (ends : Nat) : List Input :=
  reads.map Input.read ++ List.replicate ends (.read [])

/-- This read completes a header, and the stream ends before the body does. -/
def StartsShort (h : Handler) (data : Bytes) (later : List Bytes) : Prop :=
  h.phase = .outer ∧ ∃ p parsed cmd bodySize, h.parses data = some (.returned p parsed) ∧
    p.parseComplete = true ∧ p.build 0 = some (.ok cmd, bodySize) ∧
    (data.drop parsed).length + later.flatten.length < bodySize.toNat

/-- A handler that comes to its end at the end of the stream: it has returned, or
it is `RunConnection` at its outer `read`, or at its inner one with something
left in the buffer to be appended over and over. -/
def AtRest (server : Server) (h : Handler) : Prop :=
  h.phase = .returned ∨ (server = .blocking ∧ (h.phase = .outer ∨
    ∃ cmd bodySize left, h.phase = .inner cmd bodySize ∧ cString h.buf = some left ∧ left ≠ []))

theorem streamed_nil_succ (ends : Nat) : streamed [] (ends + 1) = .read [] :: streamed [] ends := by
  simp [streamed, List.replicate_succ]

theorem streamed_split (reads : List Bytes) (ends : Nat) :
    streamed reads ends = reads.map Input.read ++ streamed [] ends := by
  simp [streamed]

theorem overwrite_nothing (buf : Bytes) : overwrite buf 0 [] = buf := by
  simp [overwrite]

theorem step_end_inner {h : Handler} {cmd : Option Command} {bodySize : UInt32}
    (inner : h.phase = .inner cmd bodySize) :
    h.step server backend (.read []) = (h.readBody server backend cmd bodySize).map (·, ()) := by
  rw [step_read (Nat.zero_le _), onRead, overwrite_nothing]
  split
  next outer => simp [inner] at outer
  next cmd' bodySize' inner' =>
    cases inner.symm.trans inner'
    rfl
  next hr => simp [inner] at hr
  next what hw => simp [inner] at hw

/-- Without anything to append, the inner loop turns forever. -/
theorem inner_forever {h t : Handler} {cmd : Option Command} {bodySize : UInt32}
    (inner : h.phase = .inner cmd bodySize) (hl : h.Lacks bodySize) (hs : cString h.buf = some [])
    {ends : Nat} (ha : h.after server backend (streamed [] ends) = some t) : t = h := by
  have hstay : h.step server backend (.read []) = some (h, ()) := by
    have hsame : { h with phase := .inner cmd bodySize } = h := by rw [← inner]
    rw [step_end_inner inner, readBody, hs, Option.bind_eq_bind, Option.bind_some, List.append_nil,
      gather_of_lacks hl, hsame, Option.map_some]
  induction ends with
  | zero => exact (Option.some.inj ha).symm
  | succ ends ih =>
    rw [streamed_nil_succ] at ha
    obtain ⟨mid, hmid, ha⟩ := after_cons_eq_some ha
    cases hstay.symm.trans hmid
    exact ih ha

/-- With something to append, the inner loop executes its command, whatever the
bytes are, and `RunConnection` returns at the next read. -/
theorem inner_returns (sends : ∀ log, 0 < backend.send log) {h : Handler} {com : Command}
    {bodySize : UInt32} (inner : h.phase = .inner (some com) bodySize) {left : Bytes}
    (hs : cString h.buf = some left) (hne : left ≠ []) :
    ∃ ends t, h.after .blocking backend (streamed [] ends) = some t ∧ t.phase = .returned := by
  induction hn : (bodySize + 2).toNat - h.command.length using Nat.strong_induction_on
    generalizing h with
  | _ n ih =>
    have hread : h.step .blocking backend (.read []) =
        (gather .blocking backend { h with command := h.command ++ left } (some com) bodySize).map
          (·, ()) := by
      rw [step_end_inner inner, readBody, hs, Option.bind_eq_bind, Option.bind_some]
    have hpos := List.length_pos_iff.mpr hne
    by_cases hl : Lacks { h with command := h.command ++ left } bodySize
    · rw [gather_of_lacks hl, Option.map_some] at hread
      have hmore := hl.2
      dsimp only at hmore
      rw [List.length_append] at hmore
      have hless : (bodySize + 2).toNat - (h.command ++ left).length < n := by
        rw [List.length_append]
        omega
      obtain ⟨ends, t, ha, hr⟩ := ih _ hless (h := { h with
        command := h.command ++ left, phase := .inner (some com) bodySize }) rfl hs rfl
      refine ⟨ends + 1, t, ?_, hr⟩
      rw [streamed_nil_succ, after_cons, hread]
      exact ha
    · rw [gather_of_not_lacks sends hl, Option.map_some] at hread
      refine ⟨2, finish .blocking (answered backend { h with command := h.command ++ left } com
        (arguments { h with command := h.command ++ left } bodySize)), ?_, rfl⟩
      rw [streamed_nil_succ, after_cons, hread, Option.bind_some, streamed_nil_succ, after_cons,
        step_read (Nat.zero_le _)]
      simp only [onRead, answered_phase, answered_command, and_self, if_true, Option.map_some,
        Option.bind_some]
      rfl

theorem never_returns (sends : ∀ log, 0 < backend.send log) {h t : Handler} {inputs : List Input}
    (hends : ∀ i ∈ inputs, i = .read []) (hr : h.phase ≠ .returned)
    (ha : h.after .nonBlocking backend inputs = some t) : t.phase ≠ .returned := by
  refine after_invariant (I := fun u => u.phase ≠ .returned) (fun u i hi v hu hs => ?_) hr ha
  have hm := moves_of_step sends hs
  rw [hends i hi] at hm
  exact hm.not_returned sends hu

theorem atRest_of_returns (sends : ∀ log, 0 < backend.send log) {h t : Handler} (ht : h.Tidy)
    {ends : Nat} (ha : h.after server backend (streamed [] ends) = some t)
    (hr : t.phase = .returned) : h.AtRest server := by
  have hends : ∀ i ∈ streamed [] ends, i = .read [] := fun i hi => by
    simpa [streamed] using List.eq_of_mem_replicate (by simpa [streamed] using hi)
  cases hphase : h.phase with
  | returned => exact Or.inl hphase
  | threw what =>
    have hsame : t = h := after_invariant (I := fun u => u = h)
      (fun u i _ v hu hs => ((moves_of_step sends hs).threw (hu ▸ hphase)).trans hu) rfl ha
    rw [hsame, hphase] at hr
    cases hr
  | outer =>
    cases server with
    | blocking => exact Or.inr ⟨rfl, Or.inl hphase⟩
    | nonBlocking =>
      exact absurd hr (never_returns sends hends (by simp [hphase]) ha)
  | inner cmd bodySize =>
    cases server with
    | nonBlocking => exact absurd hr (never_returns sends hends (by simp [hphase]) ha)
    | blocking =>
      cases hstring : cString h.buf with
      | none =>
        cases ends with
        | zero =>
          cases Option.some.inj ha
          simp [hphase] at hr
        | succ ends =>
          rw [streamed_nil_succ, after_cons, step_end_inner hphase, readBody, hstring] at ha
          cases ha
      | some left =>
        by_cases hne : left = []
        · rw [hne] at hstring
          rw [inner_forever hphase (ht.inner _ _ hphase).2 hstring ha, hphase] at hr
          cases hr
        · exact Or.inr ⟨rfl, Or.inr ⟨cmd, bodySize, left, hphase, hstring, hne⟩⟩

theorem returns_of_atRest (sends : ∀ log, 0 < backend.send log) {h : Handler} (ht : h.Tidy)
    (hr : h.AtRest server) :
    ∃ ends t, h.after server backend (streamed [] ends) = some t ∧ t.phase = .returned := by
  rcases hr with hr | ⟨rfl, hr | ⟨cmd, bodySize, left, inner, hs, hne⟩⟩
  · exact ⟨0, h, rfl, hr⟩
  · refine ⟨1, h.finish .blocking, ?_, rfl⟩
    rw [streamed_nil_succ, after_cons, step_read (Nat.zero_le _)]
    simp only [onRead, hr, (ht.outer hr).1, and_self, if_true, Option.map_some, Option.bind_some]
    rfl
  · obtain ⟨com, rfl⟩ := Option.isSome_iff_exists.mp (ht.inner _ _ inner).1
    exact inner_returns sends inner hs hne

/-- A command whose header this read completes is executed, or the inner loop
waits for its body. -/
theorem StartsShort.step (sends : ∀ log, 0 < backend.send log) {h t : Handler} {data : Bytes}
    {later : List Bytes} (hg : h.Guarded server) (hshort : h.StartsShort data later)
    (hs : h.step server backend (.read data) = some (t, ())) :
    (∃ cmd bodySize, t.phase = .inner cmd bodySize ∧ t.executed = h.executed) ∨
      ∃ call, t.executed = h.executed ++ [call] := by
  obtain ⟨outer, p, parsed, cmd, bodySize, call, complete, built, _⟩ := hshort
  cases moves_of_step sends hs with
  | ended ended => rcases ended with hr | ⟨what, hr⟩ <;> simp [outer] at hr
  | finished _ quiet =>
    obtain ⟨_, hdata⟩ := quiet.resolve_right (by simp)
    cases hdata
    rw [parses_nothing (hg.parser (by rw [outer]; rfl)).2 call] at complete
    cases complete
  | rejected _ _ call' => cases call.symm.trans call'
  | waited _ _ call' incomplete =>
    cases call.symm.trans call'
    rw [complete] at incomplete
    cases incomplete
  | escaped _ _ call' _ built' =>
    cases call.symm.trans call'
    cases built.symm.trans built'
  | began _ _ call' _ built' gathers =>
    cases call.symm.trans call'
    cases built.symm.trans built'
    rcases executed_of_gather sends gathers with ⟨hphase, hsame⟩ | hmore
    · exact Or.inl ⟨_, _, hphase, hsame⟩
    · exact Or.inr hmore
  | gathered inner _ _ _ => simp [outer] at inner

end Handler

/-- The handler returns after finitely many reads at the end of the stream, and a
command whose body the stream does not contain is not executed. -/
structure EndsWithClient (server : Server) (backend : Backend) (negative : Bool)
    (reads : List Bytes) : Prop where
  returns : ∃ ends t, (Handler.fresh negative).after server backend (Handler.streamed reads ends) =
    some t ∧ t.phase = .returned
  neverShort : ∀ before data later h, reads = before ++ data :: later →
    (Handler.fresh negative).after server backend (before.map Input.read) = some h →
    h.StartsShort data later → ∀ ends t,
      h.after server backend (Handler.streamed (data :: later) ends) = some t →
      t.executed = h.executed

/-- Every header that the handler completes has its body behind it in the
stream, and the end of the stream finds the handler at rest. -/
structure MeetsEnd (server : Server) (backend : Backend) (negative : Bool) (reads : List Bytes) :
    Prop where
  whole : ∀ before data later h, reads = before ++ data :: later →
    (Handler.fresh negative).after server backend (before.map Input.read) = some h →
    ¬ h.StartsShort data later
  rests : ∃ h, (Handler.fresh negative).after server backend (reads.map Input.read) = some h ∧
    h.AtRest server

theorem EndsWithClient.meetsEnd {server : Server} {backend : Backend}
    (sends : ∀ log, 0 < backend.send log) {negative : Bool} {reads : List Bytes}
    (hends : EndsWithClient server backend negative reads) :
    MeetsEnd server backend negative reads := by
  obtain ⟨ends, t, ha, hr⟩ := hends.returns
  constructor
  · intro before data later h hsplit hbefore hshort
    have hstream : Handler.streamed reads ends =
        before.map Input.read ++ Handler.streamed (data :: later) ends := by
      simp [Handler.streamed, hsplit]
    rw [hstream, Handler.after_append, hbefore, Option.bind_some] at ha
    have hsame := hends.neverShort before data later h hsplit hbefore hshort ends t ha
    rw [Handler.streamed_split, List.map_cons, List.cons_append] at ha
    obtain ⟨mid, hs, ha⟩ := Handler.after_cons_eq_some ha
    rcases hshort.step sends (Handler.after_tidy sends hbefore).1 hs with
      ⟨cmd, bodySize, inner, hmid⟩ | ⟨call, hmid⟩
    · rw [Handler.inner_of_executed sends inner ha (hsame.trans hmid.symm)] at hr
      cases hr
    · have hlen := (Handler.executed_after sends ha).length_le
      rw [hsame, hmid, List.length_append, List.length_singleton] at hlen
      exact absurd hlen (Nat.not_succ_le_self _)
  · rw [Handler.streamed_split] at ha
    obtain ⟨h, hreads, ha⟩ := Handler.after_append_eq_some ha
    exact ⟨h, hreads, Handler.atRest_of_returns sends (Handler.after_tidy sends hreads).2 ha hr⟩

theorem MeetsEnd.endsWithClient {server : Server} {backend : Backend}
    (sends : ∀ log, 0 < backend.send log) {negative : Bool} {reads : List Bytes}
    (hmeets : MeetsEnd server backend negative reads) :
    EndsWithClient server backend negative reads := by
  constructor
  · obtain ⟨h, hreads, hrest⟩ := hmeets.rests
    obtain ⟨ends, t, ha, hr⟩ :=
      Handler.returns_of_atRest sends (Handler.after_tidy sends hreads).2 hrest
    refine ⟨ends, t, ?_, hr⟩
    rw [Handler.streamed_split, Handler.after_append, hreads, Option.bind_some]
    exact ha
  · intro before data later h hsplit hbefore hshort
    exact absurd hshort (hmeets.whole before data later h hsplit hbefore)

/-- For every stream, in whatever reads it comes, a handler ends with its client
if and only if the stream leaves no body incomplete and the handler at rest. -/
theorem ends_with_client_iff (server : Server) {backend : Backend}
    (sends : ∀ log, 0 < backend.send log) (negative : Bool) (reads : List Bytes) :
    EndsWithClient server backend negative reads ↔ MeetsEnd server backend negative reads :=
  ⟨fun hends => hends.meetsEnd sends, fun hmeets => hmeets.endsWithClient sends⟩

theorem ends_with_client_iff_whole_set :
    (∀ log, 0 < Backend.working.send log) ∧
      EndsWithClient .blocking .working false [text "set k 0 0 3\r\nabc\r\n"] := by
  refine ⟨working_sends, (ends_with_client_iff .blocking working_sends false _).mpr ⟨?_, ?_⟩⟩
  · intro before data later h hsplit hbefore hshort
    obtain ⟨rfl, rfl, rfl⟩ : before = [] ∧ data = text "set k 0 0 3\r\nabc\r\n" ∧ later = [] := by
      simpa [List.singleton_eq_append_iff] using hsplit
    cases Option.some.inj hbefore
    obtain ⟨_, p, parsed, cmd, bodySize, call, _, built, hlt⟩ := hshort
    have hcall : (Handler.fresh false).parses (text "set k 0 0 3\r\nabc\r\n") =
        some (.returned ⟨.sLF, text "set", [text "k"], 0, 0, 3, false, text "k", true⟩ 13) := by decide
    cases call.symm.trans hcall
    cases built
    exact absurd hlt (by decide)
  · obtain ⟨h, hafter, hphase⟩ : ∃ h, (Handler.fresh false).after .blocking .working
        [.read (text "set k 0 0 3\r\nabc\r\n")] = some h ∧ h.phase = .outer :=
      Option.map_eq_some_iff.mp (by decide)
    exact ⟨h, hafter, Or.inr ⟨rfl, Or.inl hphase⟩⟩

/-- `ConnectionWork` goes on reading at the end of a stream of whole commands,
and `RunConnection` executes a command whose body never comes. -/
theorem end_of_stream_not_met :
    ¬ EndsWithClient .nonBlocking .working false [text "get a\r\n"] ∧
      ((Handler.fresh false).after .blocking .working
        (Handler.streamed [text "set k 0 0 5\r\n"] 1)).map Handler.executed =
          some [(.insert .set ⟨text "k", 0, 0⟩, text "set k")] ∧
      ¬ EndsWithClient .blocking .working false [text "set k 0 0 5\r\n"] := by
  refine ⟨fun hends => ?_, by decide, fun hends => ?_⟩
  · obtain ⟨h, hafter, hrest⟩ := (hends.meetsEnd working_sends).rests
    have hphase : ((Handler.fresh false).after .nonBlocking .working
        [.read (text "get a\r\n")]).map Handler.phase = some .outer := by decide
    rw [List.map_singleton] at hafter
    rw [hafter, Option.map_some, Option.some.injEq] at hphase
    simp [Handler.AtRest, hphase] at hrest
  · refine (hends.meetsEnd working_sends).whole [] (text "set k 0 0 5\r\n") [] (Handler.fresh false)
      rfl rfl ⟨rfl, ⟨.sLF, text "set", [text "k"], 0, 0, 5, false, text "k", true⟩, 13,
        some (.insert .set ⟨text "k", 0, 0⟩), 5, by decide, rfl, rfl, by decide⟩

end Afina
