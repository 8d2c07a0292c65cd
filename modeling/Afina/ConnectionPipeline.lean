import Afina.ConnectionLog

namespace Afina

/-- The reads, cut into groups, are the rest of a command followed by whole
commands. -/
def CutAt (rest : Bytes) (requests : List Request) (reads : List Bytes) : Prop :=
  ∃ (first : List Bytes) (groups : List (List Bytes)), reads = first ++ groups.flatten ∧
    first.flatten = rest ∧ groups.map List.flatten = requests.map Request.encode

/-- No read carries bytes of two commands. -/
def OneCommandPerRead (requests : List Request) (reads : List Bytes) : Prop :=
  ∃ groups : List (List Bytes), groups.flatten = reads ∧
    groups.map List.flatten = requests.map Request.encode

/-- Every `OnRead` returns, every command is executed once, in order and with
its own body, and every byte is consumed once. -/
def Pipelined (uv : Libuv) (memory : Bytes) (negative : Bool) (requests : List Request)
    (reads : List Bytes) : Prop :=
  ∃ passes final history,
    PartialRun.run (Session.step uv passes) (Session.fresh memory negative) reads =
      some (final, history) ∧
    final.executed = requests.map Request.call ∧
    final.consumed.Perm (List.range reads.flatten.length)

inductive Connection.At (c : Connection) : Bytes → List (Command × Bytes) → Prop
  | ready (h : c.Ready) : c.At [] []
  | inside {q : Request} {rest : Bytes} (hq : q.WellFormed) (h : c.Inside q rest) :
      c.At rest [q.call]

theorem Connection.Ready.border {c : Connection} (h : c.Ready) {rest : Bytes} (hrest : rest = []) :
    c.At rest [] := by
  subst hrest
  exact .ready h

theorem CutAt.cons {rest : Bytes} {requests : List Request} {reads : List Bytes}
    (h : CutAt rest requests reads) (r : Bytes) : CutAt (r ++ rest) requests (r :: reads) := by
  obtain ⟨first, groups, rfl, rfl, hgroups⟩ := h
  exact ⟨r :: first, groups, rfl, rfl, hgroups⟩

theorem CutAt.tail {r rest : Bytes} {requests : List Request} {reads : List Bytes}
    (h : CutAt rest requests (r :: reads)) (hne : rest ≠ []) :
    ∃ rest', rest = r ++ rest' ∧ CutAt rest' requests reads := by
  obtain ⟨first, groups, heq, rfl, hgroups⟩ := h
  cases first with
  | nil => exact absurd rfl hne
  | cons r' first =>
    obtain ⟨hr, htail⟩ := List.cons.inj heq
    exact ⟨first.flatten, by rw [hr, List.flatten_cons], first, groups, htail, rfl, hgroups⟩

theorem nil_of_flatten_nil {first : List Bytes} (h : first.flatten = [])
    (hne : ∀ r ∈ first, r ≠ []) : first = [] :=
  List.eq_nil_iff_forall_not_mem.mpr fun r hr => hne r hr (List.flatten_eq_nil_iff.mp h r hr)

theorem cutAt_border_iff {q : Request} {requests : List Request} {reads : List Bytes}
    (hreads : ∀ r ∈ reads, r ≠ []) :
    CutAt [] (q :: requests) reads ↔ CutAt q.encode requests reads := by
  constructor
  · rintro ⟨first, groups, rfl, hfirst, hgroups⟩
    have hnil := nil_of_flatten_nil hfirst fun r hr => hreads r (List.mem_append_left _ hr)
    cases groups with
    | nil => simp at hgroups
    | cons g groups =>
      obtain ⟨hg, hgroups⟩ := List.cons.inj hgroups
      exact ⟨g, groups, by simp [hnil], hg, hgroups⟩
  · rintro ⟨first, groups, rfl, hfirst, hgroups⟩
    exact ⟨[], first :: groups, rfl, rfl, by simp [hfirst, hgroups]⟩

theorem oneCommandPerRead_iff {requests : List Request} {reads : List Bytes}
    (hreads : ∀ r ∈ reads, r ≠ []) : OneCommandPerRead requests reads ↔ CutAt [] requests reads := by
  constructor
  · rintro ⟨groups, rfl, hgroups⟩
    exact ⟨[], groups, rfl, rfl, hgroups⟩
  · rintro ⟨first, groups, rfl, hfirst, hgroups⟩
    have hnil := nil_of_flatten_nil hfirst fun r hr => hreads r (List.mem_append_left _ hr)
    exact ⟨groups, by simp [hnil], hgroups⟩

theorem requests_nil {requests : List Request}
    (h : (requests.map Request.encode).flatten = []) : requests = [] := by
  cases requests with
  | nil => rfl
  | cons q requests =>
    rw [List.map_cons, List.flatten_cons, List.append_eq_nil_iff] at h
    exact absurd h.1 q.encode_ne_nil

section

variable {uv : Libuv}

theorem cutAt_of_run (hu : ∀ log, uv.asyncInit log = 0) {passes : Nat} {reads : List Bytes}
    {s final : Session} {history : List (Bytes × Unit)} {n : Nat}
    {calls pending : List (Command × Bytes)} {rest : Bytes} {requests : List Request}
    (hs : s.Sync n calls) (hat : s.conn.At rest pending) (hwf : ∀ q ∈ requests, q.WellFormed)
    (hreads : ∀ r ∈ reads, r ≠ [] ∧ r.length ≤ connectionInputBufferSize)
    (hflat : reads.flatten = rest ++ (requests.map Request.encode).flatten)
    (hrun : PartialRun.run (Session.step uv passes) s reads = some (final, history))
    (hcalls : final.executed = calls ++ pending ++ requests.map Request.call)
    (honce : final.consumed.Nodup) : CutAt rest requests reads := by
  induction reads generalizing s n calls pending rest requests history with
  | nil =>
    obtain ⟨hrest, htail⟩ := List.append_eq_nil_iff.mp hflat.symm
    rw [hrest, requests_nil htail]
    exact ⟨[], [], rfl, rfl, rfl⟩
  | cons r reads ih =>
    obtain ⟨t, b, later, hstep, hlater, _⟩ := PartialRun.run_cons_eq_some hrun
    have hr := hreads r List.mem_cons_self
    have hreads' : ∀ r' ∈ reads, r' ≠ [] ∧ r'.length ≤ connectionInputBufferSize :=
      fun r' hr' => hreads r' (List.mem_cons_of_mem r hr')
    -- it is enough to look at reads that start inside a command
    have hinside : ∀ {q : Request} {rest : Bytes} {requests : List Request}, q.WellFormed →
        s.conn.Inside q rest → (∀ q ∈ requests, q.WellFormed) →
        (r :: reads).flatten = rest ++ (requests.map Request.encode).flatten →
        final.executed = calls ++ [q.call] ++ requests.map Request.call →
        CutAt rest requests (r :: reads) := by
      intro q rest requests hq hin hwf hflat hcalls
      rw [List.flatten_cons] at hflat
      rcases List.append_eq_append_iff.mp hflat with ⟨rest', hrest, htail⟩ | ⟨w, hw, htail⟩
      · obtain ⟨u, _, hunique, hafter⟩ := Session.step_inside hq hu hs hin hrest hr.2
        cases hunique _ _ _ hstep
        rw [hrest]
        rcases hafter with ⟨_, hsync, hin'⟩ | ⟨rfl, hsync, hready⟩
        · exact (ih hsync (.inside hq hin') hwf hreads' htail hlater hcalls).cons r
        · exact (ih hsync (.ready hready) hwf hreads' htail hlater (by simpa using hcalls)).cons r
      · by_cases hne : w = []
        · subst hne
          rw [List.append_nil] at hw
          subst hw
          obtain ⟨u, _, hunique, hafter⟩ :=
            Session.step_inside hq hu hs hin (List.append_nil r).symm hr.2
          cases hunique _ _ _ hstep
          rcases hafter with ⟨hne, _⟩ | ⟨_, hsync, hready⟩
          · exact absurd rfl hne
          · have hcut := ih hsync (.ready hready) hwf hreads' htail.symm hlater
              (by simpa using hcalls)
            simpa using hcut.cons r
        · rcases (Session.step_beyond hq hu hs hin hw hne hr.2 hstep).run hlater with
            hdup | ⟨_, hexec⟩
          · exact absurd honce hdup
          · have hnone : requests = [] := by
              rw [hcalls] at hexec
              exact List.map_eq_nil_iff.mp (List.append_right_eq_self.mp hexec)
            rw [hnone] at htail
            exact absurd (List.append_eq_nil_iff.mp htail.symm).1 hne
    cases hat with
    | inside hq hin => exact hinside hq hin hwf hflat hcalls
    | ready hready =>
      cases requests with
      | nil =>
        exact absurd (List.append_eq_nil_iff.mp hflat).1 hr.1
      | cons q requests =>
        refine (cutAt_border_iff fun r' hr' => (hreads r' hr').1).mpr ?_
        refine hinside (hwf q List.mem_cons_self) (hready.inside q)
          (fun q' hq' => hwf q' (List.mem_cons_of_mem q hq')) (by simpa using hflat) ?_
        simpa using hcalls

/-- Reads that carry what is left of one command, and nothing else. -/
theorem run_rest (hu : ∀ log, uv.asyncInit log = 0) {passes : Nat}
    (hp : connectionInputBufferSize ≤ passes) {reads : List Bytes} {s : Session} {n : Nat}
    {calls pending : List (Command × Bytes)} (hs : s.Sync n calls)
    (hat : s.conn.At reads.flatten pending)
    (hreads : ∀ r ∈ reads, r.length ≤ connectionInputBufferSize) :
    ∃ final history, PartialRun.run (Session.step uv passes) s reads = some (final, history) ∧
      final.Sync (n + reads.flatten.length) (calls ++ pending) ∧ final.conn.Ready := by
  induction reads generalizing s n calls pending with
  | nil =>
    cases hat with
    | inside hq hin => exact absurd rfl hin.rest_ne_nil
    | ready hready => exact ⟨s, [], rfl, by simpa using hs, hready⟩
  | cons r reads ih =>
    have hreads' : ∀ r' ∈ reads, r'.length ≤ connectionInputBufferSize :=
      fun r' hr' => hreads r' (List.mem_cons_of_mem r hr')
    have hlen : n + (r :: reads).flatten.length = n + r.length + reads.flatten.length := by
      rw [List.flatten_cons, List.length_append, Nat.add_assoc]
    rw [hlen]
    generalize hrest : (r :: reads).flatten = rest at hat
    rw [List.flatten_cons] at hrest
    cases hat with
    | ready hready =>
      obtain ⟨rfl, hnil⟩ := List.append_eq_nil_iff.mp hrest
      obtain ⟨t, hstep, hsync, hready'⟩ := Session.step_nothing uv hs hready passes
      obtain ⟨final, history, hrun, hfinal⟩ := ih hsync (hready'.border hnil) hreads'
      exact ⟨final, _, PartialRun.run_cons hstep hrun, hfinal⟩
    | inside hq hin =>
      obtain ⟨t, hstep, _, hafter⟩ :=
        Session.step_inside hq hu hs hin hrest.symm (hreads r List.mem_cons_self)
      rcases hafter with ⟨_, hsync, hin'⟩ | ⟨hnil, hsync, hready⟩
      · obtain ⟨final, history, hrun, hfinal⟩ := ih hsync (.inside hq hin') hreads'
        exact ⟨final, _, PartialRun.run_cons (hstep passes hp) hrun, hfinal⟩
      · obtain ⟨final, history, hrun, hfinal⟩ := ih hsync (hready.border hnil) hreads'
        exact ⟨final, _, PartialRun.run_cons (hstep passes hp) hrun, by simpa using hfinal⟩

theorem run_groups (hu : ∀ log, uv.asyncInit log = 0) {passes : Nat}
    (hp : connectionInputBufferSize ≤ passes) {requests : List Request} {groups : List (List Bytes)}
    {s : Session} {n : Nat} {calls : List (Command × Bytes)} (hs : s.Sync n calls)
    (hready : s.conn.Ready) (hwf : ∀ q ∈ requests, q.WellFormed)
    (hgroups : groups.map List.flatten = requests.map Request.encode)
    (hreads : ∀ r ∈ groups.flatten, r.length ≤ connectionInputBufferSize) :
    ∃ final history,
      PartialRun.run (Session.step uv passes) s groups.flatten = some (final, history) ∧
        final.Sync (n + groups.flatten.flatten.length) (calls ++ requests.map Request.call) ∧
        final.conn.Ready := by
  induction groups generalizing s n calls requests with
  | nil =>
    rw [List.map_nil, eq_comm, List.map_eq_nil_iff] at hgroups
    subst hgroups
    exact ⟨s, [], rfl, by simpa using hs, hready⟩
  | cons g groups ih =>
    cases requests with
    | nil => simp at hgroups
    | cons q requests =>
      obtain ⟨hg, hgroups⟩ := List.cons.inj hgroups
      have hat : s.conn.At g.flatten [q.call] :=
        hg ▸ .inside (hwf q List.mem_cons_self) (hready.inside q)
      obtain ⟨mid, before, hbefore, hmid, hready'⟩ := run_rest hu hp hs hat
        fun r hr => hreads r (List.mem_append_left _ hr)
      obtain ⟨final, after, hafter, hfinal, hend⟩ := ih hmid hready'
        (fun q' hq' => hwf q' (List.mem_cons_of_mem q hq')) hgroups
        fun r hr => hreads r (List.mem_append_right g hr)
      refine ⟨final, _, PartialRun.run_append hbefore hafter, ?_, hend⟩
      simpa [Nat.add_assoc] using hfinal

theorem run_of_cutAt (hu : ∀ log, uv.asyncInit log = 0) {passes : Nat}
    (hp : connectionInputBufferSize ≤ passes) {reads : List Bytes} {s : Session} {n : Nat}
    {calls : List (Command × Bytes)} {requests : List Request}
    (hs : s.Sync n calls) (hready : s.conn.Ready) (hwf : ∀ q ∈ requests, q.WellFormed)
    (hreads : ∀ r ∈ reads, r.length ≤ connectionInputBufferSize)
    (hcut : CutAt [] requests reads) :
    ∃ final history, PartialRun.run (Session.step uv passes) s reads = some (final, history) ∧
      final.Sync (n + reads.flatten.length) (calls ++ requests.map Request.call) ∧
      final.conn.Ready := by
  obtain ⟨first, groups, rfl, hfirst, hgroups⟩ := hcut
  obtain ⟨mid, before, hbefore, hmid, hready'⟩ := run_rest hu hp hs (hready.border hfirst)
    fun r hr => hreads r (List.mem_append_left _ hr)
  obtain ⟨final, after, hafter, hfinal, hend⟩ := run_groups hu hp hmid hready' hwf hgroups
    fun r hr => hreads r (List.mem_append_right first hr)
  exact ⟨final, _, PartialRun.run_append hbefore hafter, by simpa [Nat.add_assoc] using hfinal, hend⟩

end

/-- Well-formed commands in any reads that fit the buffer are handled as a
pipeline if and only if no read carries bytes of two commands. -/
theorem pipelined_iff {uv : Libuv} (works : ∀ log, uv.asyncInit log = 0) {memory : Bytes}
    (hmemory : memory.length = connectionInputBufferSize) (negative : Bool)
    {requests : List Request} (hwf : ∀ q ∈ requests, q.WellFormed) {reads : List Bytes}
    (hreads : ∀ r ∈ reads, r ≠ [] ∧ r.length ≤ connectionInputBufferSize)
    (hstream : reads.flatten = (requests.map Request.encode).flatten) :
    Pipelined uv memory negative requests reads ↔ OneCommandPerRead requests reads := by
  have hsync := Session.fresh_sync hmemory negative
  have hready := Session.fresh_ready memory negative
  rw [oneCommandPerRead_iff fun r hr => (hreads r hr).1]
  constructor
  · rintro ⟨passes, final, history, hrun, hcalls, hperm⟩
    exact cutAt_of_run works hsync (.ready hready) hwf hreads hstream hrun (by simpa using hcalls)
      (hperm.nodup_iff.mpr List.nodup_range)
  · intro hcut
    obtain ⟨final, history, hrun, hfinal, _⟩ :=
      run_of_cutAt works (Nat.le_refl _) hsync hready hwf (fun r hr => (hreads r hr).2) hcut
    refine ⟨_, final, history, hrun, by simpa using hfinal.executed, ?_⟩
    have hconsumed := hfinal.consumed
    rw [Nat.zero_add] at hconsumed
    rw [hconsumed]

def Libuv.working : Libuv := ⟨fun _ => 0, fun _ => 0⟩

/-- A buffer that starts with a command without a body and goes on behind it:
the loop executes that command over and over. -/
theorem readLoop_hangs {uv : Libuv} (hu : ∀ log, uv.asyncInit log = 0) {q : Request}
    (hq : q.WellFormed) (hb : q.body = []) {w : Bytes} (hw : w ≠ []) {s : Session}
    (hready : s.conn.Ready) (hbuffer : s.conn.input.take s.conn.inputUsed = q.header ++ w)
    (hlt : s.conn.inputParsed < s.conn.inputUsed) (n : Nat) :
    Session.readLoop uv n s = .running := by
  induction n generalizing s with
  | zero => simp [Session.readLoop, hlt]
  | succ n ih =>
    obtain ⟨negative, hp⟩ := hready.parser
    obtain ⟨p, hread, hcomplete, hbuild⟩ := hq.framed.reads_header negative
    have hparse : (Parser.fresh negative).parse (q.header ++ w) = .returned p q.header.length :=
      hread.scan_complete hcomplete w
    have hbranch : s.branch = some (.normally ⟨{ s.conn with
        parser := p, inputParsed := q.header.length, cmd := some q.command, bodySize := 0,
        state := .sExecute }, (s.record (.consumed s.conn.origin q.header.length)).log⟩) := by
      simp [Session.branch, hready.state, Session.recvHeader, hp, hbuffer, hparse, hcomplete, hbuild,
        hb]
    obtain ⟨t, hrun, hmoved, hready'⟩ := Session.runCommand_execute hu
      (s := ⟨{ s.conn with
        parser := p, inputParsed := q.header.length, cmd := some q.command, bodySize := 0,
        state := .sExecute }, (s.record (.consumed s.conn.origin q.header.length)).log⟩) rfl rfl
    rw [Session.readLoop, if_pos hlt, Session.pass_of_branch hbranch, hrun]
    refine ih hready' (by rw [hmoved.input, hmoved.used]; exact hbuffer) ?_
    have hlen := congrArg List.length hbuffer
    have hpos := List.length_pos_iff.mpr hw
    rw [List.length_take, List.length_append] at hlen
    rw [hmoved.parsed, hmoved.used]
    simp only [Nat.add_zero]
    omega

/-- Two commands in one read: `OnRead` does not return. -/
theorem two_gets_in_one_read_hang :
    let memory := List.replicate connectionInputBufferSize 0
    let requests : List Request := [.get [text "a"], .get [text "b"]]
    let reads := [text "get a\r\nget b\r\n"]
    (∀ q ∈ requests, q.WellFormed) ∧
      (∀ r ∈ reads, r ≠ [] ∧ r.length ≤ connectionInputBufferSize) ∧
      reads.flatten = (requests.map Request.encode).flatten ∧
      (∀ passes, PartialRun.run (Session.step .working passes) (Session.fresh memory false) reads =
        none) ∧
      ¬ Pipelined .working memory false requests reads := by
  intro memory requests reads
  have hsync := Session.fresh_sync
    (List.length_replicate : memory.length = connectionInputBufferSize) false
  have hhang : ∀ passes,
      Session.step .working passes (Session.fresh memory false) (text "get a\r\nget b\r\n") = none := by
    intro passes
    have hfits : (text "get a\r\nget b\r\n").length ≤ connectionInputBufferSize := by decide
    have hloop := readLoop_hangs (fun _ => rfl : ∀ log, Libuv.working.asyncInit log = 0)
      (q := .get [text "a"]) (by decide)
      rfl (w := text "get b\r\n") (by decide)
      (s := (Session.fresh memory false).loaded (text "get a\r\nget b\r\n"))
      ⟨rfl, ⟨false, rfl⟩, rfl, rfl⟩
      ((Session.loaded_buffer _ _).trans (by decide)) (by decide) passes
    rw [Session.step_loaded hsync (by decide) hfits, hloop]
  have hrun : ∀ passes,
      PartialRun.run (Session.step .working passes) (Session.fresh memory false) reads = none := by
    intro passes
    simp [PartialRun.run, reads, hhang]
  refine ⟨by decide, by decide, by decide, hrun, ?_⟩
  rintro ⟨passes, final, history, hsome, _⟩
  rw [hrun] at hsome
  cases hsome

theorem pipelined_iff_cut_set :
    let memory := List.replicate connectionInputBufferSize 0
    let requests : List Request :=
      [.put (text "set") .set (text "k") 1 0 (text "abc"), .get [text "k"]]
    let reads := [text "set k 1 0 3\r", text "\nab", text "c\r", text "\n", text "get k\r\n"]
    memory.length = connectionInputBufferSize ∧ (∀ q ∈ requests, q.WellFormed) ∧
      Pipelined .working memory true requests reads := by
  intro memory requests reads
  refine ⟨List.length_replicate, by decide, ?_⟩
  refine (pipelined_iff (fun _ => rfl) List.length_replicate true (by decide) (by decide)
    (by decide)).mpr ⟨[[text "set k 1 0 3\r", text "\nab", text "c\r", text "\n"],
      [text "get k\r\n"]], rfl, by decide⟩

end Afina
