import Afina.ConnectionLoop
import Afina.ConnectionPipeline
import Afina.ParserNames

namespace Afina

/-- Somewhere inside a command, or closed. -/
def Connection.Amid (c : Connection) : Prop := c.state ≠ .sRecvHeader ∨ c.parser.name ≠ []

theorem Connection.Ready.not_amid {c : Connection} (h : c.Ready) : ¬ c.Amid := by
  obtain ⟨negative, hp⟩ := h.parser
  rintro (hstate | hname)
  · exact hstate h.state
  · exact hname (by rw [hp]; rfl)

namespace Session

variable {uv : Libuv}

/-- An error was sent to the client. -/
def Complained (s : Session) : Prop := ∃ output, .clientError output ∈ s.log

/-- Behind its first command the connection has begun something else. -/
def Strayed (s : Session) : Prop :=
  s.Complained ∨ 2 ≤ s.executed.length ∨ (1 ≤ s.executed.length ∧ s.conn.Amid)

theorem executed_mono {s t : Session} (h : s.log <+: t.log) :
    s.executed.length ≤ t.executed.length := by
  obtain ⟨more, hmore⟩ := h
  rw [executed, executed, ← hmore, List.filterMap_append, List.length_append]
  exact Nat.le_add_right _ _

theorem complained_mono {s t : Session} (h : s.log <+: t.log) (hs : s.Complained) :
    t.Complained := by
  obtain ⟨output, hmem⟩ := hs
  exact ⟨output, h.subset hmem⟩

theorem complained_of_error {s t : Session} {output : Bytes}
    (h : t.log = s.log ++ [.clientError output]) : t.Complained :=
  ⟨output, by simp [h]⟩

/-- A call that read anything at all does not leave the parser as it was made. -/
theorem recvHeader_amid {s t : Session} (h : s.recvHeader = some (.normally t))
    (hs : s.conn.parser.name ≠ [] ∨
      (∃ negative, s.conn.parser = Parser.fresh negative) ∧
        s.conn.input.take s.conn.inputUsed ≠ []) : t.conn.Amid := by
  rcases recvHeader_cases h with ⟨p, what, he⟩ | ⟨p, n, c, hp, rfl, rfl, _⟩
  · cases he
  · refine Or.inr ?_
    rcases hs with hname | ⟨⟨negative, hfresh⟩, hne⟩
    · exact Parser.parse_name_ne_nil hname hp
    · rw [hfresh] at hp
      exact Parser.parse_fresh_name_ne_nil hne hp

theorem recvTrailer_amid {s t : Session} {c : UInt8} {what : Bytes} {next : ConnectionState}
    (h : s.recvTrailer c what next = some (.normally t)) (hnext : next ≠ .sRecvHeader) :
    t.conn.Amid := by
  obtain ⟨d, _, h⟩ := Option.bind_eq_some_iff.mp h
  split at h
  next => cases h
  next => cases h; exact Or.inl hnext

theorem branch_amid {s t : Session} (h : s.branch = some (.normally t)) (hs : s.conn.Amid) :
    t.conn.Amid := by
  cases hstate : s.conn.state <;> simp only [branch, hstate] at h
  case sRecvHeader => exact recvHeader_amid h (Or.inl (hs.resolve_left fun hne => hne hstate))
  case sRecvBody =>
    cases h
    refine Or.inl ?_
    dsimp only
    split
    · simp
    · simp [hstate]
  case sRecvTrailerCR => exact recvTrailer_amid h (by simp)
  case sRecvTrailerLF => exact recvTrailer_amid h (by simp)
  all_goals
    cases h
    exact hs

theorem strayed_of_branch {s t u : Session} (hbranch : s.branch = some (.normally u))
    (hamid : u.conn.Amid) (hexec : 1 ≤ s.executed.length)
    (h : s.pass uv = some (.normally t)) : t.Strayed := by
  rw [pass_of_branch hbranch] at h
  have hmore : 1 ≤ u.executed.length := hexec.trans (executed_mono (branch_log hbranch))
  rcases runCommand_normally h with ⟨_, rfl⟩ | ⟨_, cmd, _, rfl⟩
  · exact Or.inr (Or.inr ⟨hmore, hamid⟩)
  · refine Or.inr (Or.inl ?_)
    rw [(u.moved_afterCommand cmd).executed, List.length_append]
    exact Nat.add_le_add_right hmore 1

theorem branch_of_pass {s t : Session} (h : s.pass uv = some (.normally t)) :
    ∃ u, s.branch = some (.normally u) := by
  obtain ⟨e, hbranch, _, hthrow⟩ := pass_log h
  cases e with
  | normally u => exact ⟨u, hbranch⟩
  | threw u what => cases hthrow u what rfl

theorem Strayed.pass {s t : Session} (hs : s.Strayed) (h : s.pass uv = some (.normally t)) :
    t.Strayed := by
  obtain ⟨u, hbranch⟩ := branch_of_pass h
  have hlog : s.log <+: t.log := pass_extends h
  rcases hs with herror | htwo | ⟨hone, hamid⟩
  · exact Or.inl (complained_mono hlog herror)
  · exact Or.inr (Or.inl (htwo.trans (executed_mono hlog)))
  · exact strayed_of_branch hbranch (branch_amid hbranch hamid) hone h

theorem Strayed.iterates {s t : Session} (hs : s.Strayed) (h : Iterates uv s t) : t.Strayed := by
  induction h with
  | start => exact hs
  | next _ _ hpass ih => exact ih.pass hpass

/-- `Parse` takes no empty line: whatever it finds behind the first command, the
connection strays. -/
theorem strayed_of_unread {s t : Session} (hready : s.conn.Ready)
    (hexec : 1 ≤ s.executed.length) (hunread : s.conn.unread ≠ []) (h : Iterates uv s t)
    (hidle : ¬ t.conn.inputParsed < t.conn.inputUsed) : t.Strayed := by
  have hbuffer : s.conn.input.take s.conn.inputUsed ≠ [] := by
    intro hnil
    exact hunread (by rw [Connection.unread, hnil, List.drop_nil])
  rcases h.first with rfl | ⟨u, _, hpass, hrest⟩
  · exact absurd (parsed_lt_of_unread hunread) hidle
  · obtain ⟨v, hbranch⟩ := branch_of_pass hpass
    have hamid : v.conn.Amid := by
      have hheader := hbranch
      simp only [branch, hready.state] at hheader
      exact recvHeader_amid hheader (Or.inr ⟨hready.parser, hbuffer⟩)
    exact (strayed_of_branch hbranch hamid hexec hpass).iterates hrest

theorem Strayed.step {s t : Session} (hs : s.Strayed) {data : Bytes} {passes : Nat} {r : Unit}
    (h : step uv passes s data = some (t, r)) : t.Strayed := by
  obtain ⟨c, a, hc, ha, ⟨_, rfl⟩ | ⟨_, e, hloop, rfl | ⟨u, what, rfl, hfail⟩⟩⟩ := step_cases h
  · rw [onAllocate_buffer hc]
    exact hs
  · have hstart : a.Strayed := by
      rw [arrived_buffer ha]
      exact hs
    exact hstart.iterates (readLoop_normally hloop).1
  · exact Or.inl (complained_of_error (fail_normally hfail).2)

theorem Strayed.run {s t : Session} (hs : s.Strayed) {reads : List Bytes} {passes : Nat}
    {history : List (Bytes × Unit)}
    (h : PartialRun.run (Session.step uv passes) s reads = some (t, history)) : t.Strayed :=
  (PartialRun.run_reach h).invariant (I := Strayed) hs fun _ _ _ _ hu hstep => hu.step hstep

theorem step_fits {s t : Session} {data : Bytes} {passes : Nat} {r : Unit}
    (h : step uv passes s data = some (t, r)) : data.length ≤ connectionInputBufferSize := by
  obtain ⟨c, _, h⟩ := Option.bind_eq_some_iff.mp h
  split at h
  next hfits => exact hfits.trans (Nat.sub_le _ _)
  next => cases h

/-- A read behind the first command, before any other has begun. -/
theorem Sync.step_behind {s t : Session} {n : Nat} {call : Command × Bytes} (h : s.Sync n [call])
    (hready : s.conn.Ready) {data : Bytes} (hne : data ≠ []) {passes : Nat} {r : Unit}
    (hstep : Session.step uv passes s data = some (t, r)) : t.Strayed := by
  have hopen : s.conn.state ≠ .sClosed := by simp [hready.state]
  obtain ⟨e, hloop, rfl | ⟨v, what, _, _, herror⟩⟩ := step_ends h hopen (step_fits hstep) hstep
  · obtain ⟨hiter, hidle⟩ := readLoop_normally hloop
    refine strayed_of_unread (s := s.loaded data)
      ⟨hready.state, hready.parser, hready.cmd, hready.body⟩ ?_ ?_ hiter hidle
    · have hexec : (s.loaded data).executed = [call] := h.executed
      rw [hexec]
      exact Nat.le_refl 1
    · rw [loaded_unread]
      exact hne
  · exact Or.inl (complained_of_error herror)

theorem Sync.run_behind {s t : Session} {n : Nat} {call : Command × Bytes} (h : s.Sync n [call])
    (hready : s.conn.Ready) {reads : List Bytes} (hne : reads.flatten ≠ []) {passes : Nat}
    {history : List (Bytes × Unit)}
    (hrun : PartialRun.run (Session.step uv passes) s reads = some (t, history)) : t.Strayed := by
  induction reads generalizing s history with
  | nil => exact absurd rfl hne
  | cons data reads ih =>
    obtain ⟨u, b, later, hstep, hrest, _⟩ := PartialRun.run_cons_eq_some hrun
    by_cases hdata : data = []
    · subst hdata
      obtain ⟨v, hnothing, hsync, hready'⟩ := step_nothing uv h hready passes
      rw [hstep] at hnothing
      cases Option.some.inj hnothing
      exact ih hsync hready' hne hrest
    · exact (h.step_behind hready hdata hstep).run hrest

/-- The loop from the header of a command with no bytes of body on: if it returns,
it has executed the command and come to the end of the buffer, or it has strayed. -/
theorem Iterates.header_end {q : Request} (hq : q.Framed) (hb : q.body = []) {s t : Session}
    {pre post w : Bytes} {negative : Bool} (state : s.conn.state = .sRecvHeader)
    (split : q.header = pre ++ post) (more : post ≠ [])
    (scanned : (Parser.fresh negative).parse pre = .returned s.conn.parser pre.length)
    (incomplete : s.conn.parser.parseComplete = false) (empty : s.conn.body = [])
    (hstart : s.conn.inputParsed = 0) (hused : s.conn.inputUsed = (post ++ w).length)
    (hbuffer : s.conn.input.take s.conn.inputUsed = post ++ w) (h : Iterates uv s t)
    (hidle : ¬ t.conn.inputParsed < t.conn.inputUsed) :
    (w = [] ∧ Moved s t post.length [q.call] ∧ t.conn.Ready) ∨ t.Strayed := by
  obtain ⟨u, hbranch, hmoved, hexecute, hcmd, hbody⟩ :=
    branch_header_end hq hb state split scanned incomplete empty hstart hbuffer
  rcases h.first with rfl | ⟨v, _, hpass, hrest⟩
  · have hpos := List.length_pos_iff.mpr more
    rw [hstart, hused, List.length_append] at hidle
    omega
  · rw [pass_of_branch hbranch] at hpass
    rcases runCommand_normally hpass with ⟨hne, _⟩ | ⟨_, cmd, hsome, rfl⟩
    · exact absurd hexecute hne
    · have hsame : cmd = q.command := Option.some.inj (hsome.symm.trans hcmd)
      have hdone := hmoved.trans (u.moved_afterCommand cmd)
      have hready := u.afterCommand_ready cmd
      by_cases hw : w = []
      · refine Or.inl ⟨hw, ?_⟩
        have hnothing :
            ¬ (u.afterCommand cmd).conn.inputParsed < (u.afterCommand cmd).conn.inputUsed := by
          rw [hdone.parsed, hdone.used, hstart, hused, hw, List.append_nil]
          omega
        rw [hrest.eq_of_idle hnothing, Request.call, hb, ← hsame, ← hbody]
        exact ⟨hdone, hready⟩
      · have hunread : (u.afterCommand cmd).conn.unread = w := by
          refine hdone.unread ?_
          rw [Connection.unread, hstart, hbuffer, List.drop_zero]
        refine Or.inr (strayed_of_unread hready ?_ (hunread ▸ hw) hrest hidle)
        rw [hdone.executed, List.length_append]
        exact Nat.le_add_left 1 _

/-- A read inside the header of a command with no bytes of body: the header goes
on, or it ends with the read and the command is executed, or the read goes on
behind it and the connection strays. -/
theorem Sync.step_header {q : Request} (hq : q.Framed) (hb : q.body = []) {s t : Session}
    {n : Nat} (h : s.Sync n []) {rest : Bytes} (hin : s.conn.Inside q rest)
    (hstate : s.conn.state = .sRecvHeader) {data later : Bytes} (hsplit : rest = data ++ later)
    {passes : Nat} {r : Unit} (hstep : Session.step uv passes s data = some (t, r)) :
    (t.Sync (n + data.length) [] ∧ t.conn.Inside q later ∧ t.conn.state = .sRecvHeader) ∨
      (t.Sync (n + data.length) [q.call] ∧ t.conn.Ready ∧ later = q.payload) ∨ t.Strayed := by
  have hfits := step_fits hstep
  obtain ⟨e, hloop, rfl | ⟨v, what, _, _, herror⟩⟩ := step_ends h hin.not_closed hfits hstep
  · cases hin with
    | body state => simp [state] at hstate
    | trailerCR state => simp [state] at hstate
    | trailerLF state => simp [state] at hstate
    | header state split more scanned incomplete empty =>
      rename_i pre post negative
      obtain ⟨hiter, hidle⟩ := readLoop_normally hloop
      have hend : ∀ w, data = post ++ w → q.payload = w ++ later →
          (t.Sync (n + data.length) [q.call] ∧ t.conn.Ready ∧ later = q.payload) ∨
            t.Strayed := by
        intro w hdata hpayload
        rcases Iterates.header_end (s := s.loaded data) hq hb state split more scanned incomplete
          empty rfl (congrArg List.length hdata) ((loaded_buffer s data).trans hdata) hiter hidle with
          ⟨rfl, hmoved, hready⟩ | hstrayed
        · rw [List.append_nil] at hdata
          rw [← hdata] at hmoved
          exact Or.inl ⟨h.of_moved hfits hmoved, hready, hpayload.symm⟩
        · exact Or.inr hstrayed
      rcases List.append_eq_append_iff.mp hsplit with ⟨w, hdata, hpayload⟩ | ⟨post', rfl, rfl⟩
      · exact Or.inr (hend w hdata hpayload)
      · by_cases hmore : post' = []
        · subst hmore
          exact Or.inr (hend [] (by simp) rfl)
        · refine Or.inl ?_
          obtain ⟨u, hpass, hmoved, hinside, hheader⟩ := pass_header_part uv
            (s := s.loaded data) hq state split hmore scanned incomplete empty rfl
            (loaded_buffer s data)
          rcases hiter.first with rfl | ⟨u', _, hpass', hrest⟩
          · have hnone : data = [] := by
              by_contra hne
              exact hidle (List.length_pos_iff.mpr hne)
            subst hnone
            exact ⟨h.of_moved hfits (.refl _), .header state split more scanned incomplete empty, state⟩
          · rw [hpass] at hpass'
            cases hpass'
            have hsync := h.of_moved hfits hmoved
            rw [hrest.eq_of_idle hsync.parsed.not_lt]
            exact ⟨hsync, hinside, hheader⟩
  · exact Or.inr (Or.inr (Or.inl (complained_of_error herror)))

theorem Sync.run_header {q : Request} (hq : q.Framed) (hb : q.body = []) (hp : q.payload ≠ [])
    {s t : Session} {n : Nat} (h : s.Sync n []) {reads : List Bytes}
    (hin : s.conn.Inside q reads.flatten) (hstate : s.conn.state = .sRecvHeader) {passes : Nat}
    {history : List (Bytes × Unit)}
    (hrun : PartialRun.run (Session.step uv passes) s reads = some (t, history)) : t.Strayed := by
  induction reads generalizing s n history with
  | nil => exact absurd rfl hin.rest_ne_nil
  | cons data reads ih =>
    obtain ⟨u, b, later, hstep, hrest, _⟩ := PartialRun.run_cons_eq_some hrun
    rcases h.step_header hq hb hin hstate List.flatten_cons hstep with
      ⟨hsync, hinside, hheader⟩ | ⟨hsync, hready, hlater⟩ | hstrayed
    · exact ih hsync hinside hheader hrest
    · exact hsync.run_behind hready (hlater ▸ hp) hrest
    · exact hstrayed.run hrest

theorem Strayed.complained {s : Session} (h : s.Strayed) {call : Command × Bytes}
    (hcalls : s.executed = [call]) (hready : s.conn.Ready) : s.Complained := by
  rcases h with herror | htwo | ⟨_, hamid⟩
  · exact herror
  · rw [hcalls] at htwo
    exact absurd htwo (Nat.not_succ_le_self 1)
  · exact absurd hamid hready.not_amid

end Session

theorem empty_block_strays {uv : Libuv} {memory : Bytes}
    (hmemory : memory.length = connectionInputBufferSize) {negative : Bool} {name : Bytes}
    {kind : InsertKind} (hname : (name, kind) ∈ putNames) {key : Bytes} (hkey : space ∉ key)
    {flags : UInt32} {exptime : Int32} {reads : List Bytes}
    (hstream : reads.flatten = putHeader name key flags exptime 0 ++ [cr, lf]) {passes : Nat}
    {final : Session} {history : List (Bytes × Unit)}
    (hrun : PartialRun.run (Session.step uv passes) (Session.fresh memory negative) reads =
      some (final, history)) : final.Strayed := by
  have hq : (Request.put name kind key flags exptime []).Framed := ⟨hname, hkey, Nat.two_pow_pos 32⟩
  have hin : (Session.fresh memory negative).conn.Inside (.put name kind key flags exptime [])
      reads.flatten := by
    rw [hstream]
    exact (Session.fresh_ready memory negative).inside _
  exact (Session.fresh_sync hmemory negative).run_header hq rfl (List.cons_ne_nil _ _) hin rfl hrun

/-- Every `OnRead` returns, the command is executed once and with no argument,
the two bytes behind its header are consumed, no error goes to the client, and
the connection waits for the next header as a fresh one does. -/
def EmptyBlockHandled (uv : Libuv) (memory : Bytes) (negative : Bool) (q : Request)
    (reads : List Bytes) : Prop :=
  ∃ passes final history,
    PartialRun.run (Session.step uv passes) (Session.fresh memory negative) reads =
      some (final, history) ∧
    final.executed = [(q.command, [])] ∧
    q.header.length ∈ final.consumed ∧ q.header.length + 1 ∈ final.consumed ∧
    ¬ final.Complained ∧ final.conn.Ready

/-- A command with no bytes of body is executed at the end of its header, so the
CRLF of its empty data block is never taken as such, however the bytes are cut
into reads. -/
theorem empty_block_not_handled (uv : Libuv) {memory : Bytes}
    (hmemory : memory.length = connectionInputBufferSize) (negative : Bool) {name : Bytes}
    {kind : InsertKind} (hname : (name, kind) ∈ putNames) {key : Bytes} (hkey : space ∉ key)
    (flags : UInt32) (exptime : Int32) {reads : List Bytes}
    (hstream : reads.flatten = putHeader name key flags exptime 0 ++ [cr, lf]) :
    ¬ EmptyBlockHandled uv memory negative (.put name kind key flags exptime []) reads := by
  rintro ⟨passes, final, history, hrun, hcalls, _, _, hquiet, hready⟩
  have hstrayed := empty_block_strays hmemory hname hkey hstream hrun
  exact hquiet (hstrayed.complained hcalls hready)

/-- In one read the command is executed over and over. -/
theorem empty_block_not_handled_one_read :
    let memory := List.replicate connectionInputBufferSize 0
    let reads := [text "append k 7 -5 0\r\n\r\n"]
    memory.length = connectionInputBufferSize ∧
      reads.flatten = putHeader (text "append") (text "k") 7 (-5) 0 ++ [cr, lf] ∧
      ¬ EmptyBlockHandled .working memory true (.put (text "append") .append (text "k") 7 (-5) [])
        reads := by
  intro memory reads
  have hstream : reads.flatten = putHeader (text "append") (text "k") 7 (-5) 0 ++ [cr, lf] := by
    decide
  exact ⟨List.length_replicate, hstream, empty_block_not_handled .working List.length_replicate true
    (by decide) (by decide) 7 (-5) hstream⟩

/-- In two reads the CRLF is taken for a header. -/
theorem empty_block_client_error :
    let memory := List.replicate connectionInputBufferSize 0
    let q : Request := .put (text "set") .set (text "k") 0 0 []
    let reads := [text "set k 0 0 0\r\n", text "\r\n"]
    reads.flatten = q.encode ∧
      (∃ final history,
        PartialRun.run (Session.step .working 1) (Session.fresh memory false) reads =
          some (final, history) ∧
        final.log = [.consumed 0 13, .executed q.command [],
          .clientError (text "CLIENT_ERROR Unknown command name\r\n")] ∧
        final.conn.state = .sClosed) ∧
      ¬ EmptyBlockHandled .working memory false q reads := by
  intro memory q reads
  have hstream : reads.flatten = putHeader (text "set") (text "k") 0 0 0 ++ [cr, lf] := by decide
  refine ⟨hstream, ⟨_, _, rfl, by decide, by decide⟩, ?_⟩
  rintro ⟨passes, final, history, hrun, hcalls, _, _, hquiet, hready⟩
  have hname : (text "set", InsertKind.set) ∈ putNames := by decide
  have hstrayed := empty_block_strays List.length_replicate hname (by decide) hstream hrun
  exact hquiet (hstrayed.complained hcalls hready)

end Afina
