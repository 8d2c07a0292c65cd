import Afina.HandlerFraming

namespace Afina

/-- How the reads of one command may fall: they carry no other byte, its body is
not too long for the sum in the loop condition, behind its header none but the
last is shorter than the one before, and an empty body comes with the end of its
header. -/
structure Steady (q : Request) (reads : List Bytes) : Prop where
  whole : reads.flatten = q.encode
  small : q.body.length + 2 < 2 ^ 32
  wide : ∀ front l, front ++ [l] <+: reads.map List.length → q.header.length ≤ front.sum →
    front.sum + l < q.encode.length → ∀ last ∈ front.getLast?, last ≤ l
  together : q.body = [] → ∀ front, front <+: reads.map List.length →
    q.header.length ≤ front.sum → q.encode.length ≤ front.sum

namespace Handler

variable {backend : Backend}

/-- The command was executed with its body and answered, and nothing of it is
left. -/
structure Done (q : Request) (h t : Handler) : Prop where
  ready : t.Ready
  executed : t.executed = h.executed ++ [q.call]
  sent : t.sent.length = h.sent.length + 1

theorem Done.of_log {q : Request} {h g t : Handler} (hd : Done q g t) (hlog : g.log = h.log) :
    Done q h t := by
  refine ⟨hd.ready, ?_, ?_⟩
  · rw [hd.executed, Handler.executed, hlog, Handler.executed]
  · rw [hd.sent, Handler.sent, hlog, Handler.sent]

theorem Gathering.done (server : Server) (sends : ∀ log, 0 < backend.send log) {q : Request}
    {g : Handler} {w held : Bytes} (hg : Gathering (q.payload ++ w) held g)
    (hn : q.body.length + 2 < 2 ^ 32) :
    ∃ t, g.gather server backend (some q.command) (UInt32.ofNat q.body.length) = some t ∧
      Done q g t := by
  have hall : (q.body = [] ∨ q.body.length + 2 ≤ (q.payload ++ w).length) ∧
      (q.payload ++ w).take q.body.length = q.body := by
    by_cases hb : q.body = []
    · exact ⟨Or.inl hb, by simp [hb]⟩
    · refine ⟨Or.inr ?_, Request.take_payload hb w⟩
      rw [List.length_append, Request.payload_length hb]
      omega
  obtain ⟨t, hgather, hready, hexec, hsent⟩ := hg.runs server sends hn hall.1 hall.2
  exact ⟨t, hgather, hready, hexec, hsent⟩

/-- Before its last read a command whose reads fall steadily is still open. -/
theorem Steady.inside_after (server : Server) (backend : Backend) {q : Request}
    (hq : q.Framed) {reads : List Bytes} {data : Bytes} (hsteady : Steady q (reads ++ [data]))
    (hreads : ∀ r ∈ reads ++ [data], r ≠ [] ∧ 0 ∉ r ∧ r.length < bufSize) {h : Handler}
    (hr : h.Ready) :
    ∃ t, h.after server backend (reads.map Input.read) = some t ∧ t.Inside q reads ∧
      t.log = h.log := by
  have hzero : 0 ∉ q.encode := by
    rw [← hsteady.whole]
    intro hmem
    obtain ⟨r, hr, hz⟩ := List.mem_flatten.mp hmem
    exact (hreads r hr).2.1 hz
  have hstream : q.encode = reads.flatten ++ data := by
    rw [← hsteady.whole, List.flatten_append, List.flatten_singleton]
  have hpos := List.length_pos_iff.mpr (hreads data (by simp)).1
  have hlength := congrArg List.length hstream
  rw [List.length_append] at hlength
  have hmap : (reads ++ [data]).map List.length = reads.map List.length ++ [data.length] := by simp
  -- an empty body is there with its header, else the whole command counts
  obtain ⟨bound, hbody, hbound, hlt, hwide⟩ : ∃ bound, (q.header.length < bound → q.body ≠ []) ∧
      bound ≤ q.encode.length ∧ reads.flatten.length < bound ∧
      ∀ front l, front ++ [l] <+: reads.map List.length → q.header.length ≤ front.sum →
        front.sum + l < bound → ∀ last ∈ front.getLast?, last ≤ l := by
    by_cases hb : q.body = []
    · refine ⟨q.header.length, by omega, by simp [Request.encode], ?_, by omega⟩
      by_contra hlate
      have hsum : (reads.map List.length).sum = reads.flatten.length := List.length_flatten.symm
      have := hsteady.together hb _ (hmap ▸ List.prefix_append _ _) (by omega)
      omega
    · refine ⟨q.encode.length, fun _ => hb, Nat.le_refl _, by omega, fun front l hpre => ?_⟩
      exact hsteady.wide front l (hmap ▸ hpre.trans (List.prefix_append _ _))
  refine hr.inside_after server backend hq hstream
    (fun hmem => hzero (List.mem_append_right _ hmem))
    (fun r hr => ?_) (fun front l hpre => ⟨?_, ?_, hwide front l hpre⟩) hsteady.small hbody hbound hlt
  · have := hreads r (List.mem_append_left _ hr)
    exact ⟨this.1, Nat.le_of_lt this.2.2⟩
  · intro hmem
    have hheader := List.mem_of_mem_drop (List.mem_of_mem_take (List.mem_of_mem_dropLast hmem))
    exact hzero (List.mem_append_left _ hheader)
  · obtain ⟨r, hr, rfl⟩ : ∃ r ∈ reads, r.length = l := by
      simpa using hpre.subset (List.mem_append_right _ List.mem_cons_self)
    exact fun _ => Or.inl (hreads r (List.mem_append_left _ hr)).2.2

theorem Steady.reads (server : Server) (sends : ∀ log, 0 < backend.send log) {q : Request}
    (hq : q.Framed) {reads : List Bytes} (hsteady : Steady q reads)
    (hreads : ∀ r ∈ reads, r ≠ [] ∧ 0 ∉ r ∧ r.length < bufSize) {h : Handler} (hr : h.Ready) :
    ∃ t, h.after server backend (reads.map Input.read) = some t ∧ Done q h t := by
  rcases List.eq_nil_or_concat reads with rfl | ⟨reads, data, rfl⟩
  · exact absurd hsteady.whole.symm q.encode_ne_nil
  · rw [List.concat_eq_append] at *
    obtain ⟨mid, hmid, hin, hlog⟩ := 
      Steady.inside_after server backend hq hsteady hreads hr
    obtain ⟨_, hz, hlt⟩ := hreads data (by simp)
    obtain ⟨g, hg, hlog', _, hstep⟩ := hin.gathers server backend hq hsteady.whole hz hlt
    obtain ⟨t, hgather, hdone⟩ := hg.done server sends hsteady.small
    refine ⟨t, ?_, hdone.of_log (hlog'.trans hlog)⟩
    rw [after_reads hmid, hstep, hgather]
    rfl

end Handler

/-- Each command was executed once, in order and with its own body, and answered,
and the handler is ready for the next. -/
def AnsweredInOrder (server : Server) (backend : Backend) (negative : Bool) (requests : List Request)
    (reads : List Bytes) : Prop :=
  ∃ t, (Handler.fresh negative).after server backend (reads.map Input.read) = some t ∧
    t.executed = requests.map Request.call ∧ t.sent.length = requests.length ∧ t.Ready

/-- No read carries bytes of two commands, and those of each fall steadily. -/
def Aligned (requests : List Request) (reads : List Bytes) : Prop :=
  ∃ groups, groups.flatten = reads ∧ List.Forall₂ Steady requests groups

theorem Handler.groups_execute (server : Server) {backend : Backend}
    (sends : ∀ log, 0 < backend.send log) {requests : List Request} {groups : List (List Bytes)}
    (hframed : ∀ q ∈ requests, q.Framed)
    (hreads : ∀ r ∈ groups.flatten, r ≠ [] ∧ 0 ∉ r ∧ r.length < bufSize)
    (hsteady : List.Forall₂ Steady requests groups) {h : Handler} (hr : h.Ready) :
    ∃ t, h.after server backend (groups.flatten.map Input.read) = some t ∧
      t.executed = h.executed ++ requests.map Request.call ∧
      t.sent.length = h.sent.length + requests.length ∧ t.Ready := by
  induction hsteady generalizing h with
  | nil => exact ⟨h, rfl, by simp, rfl, hr⟩
  | @cons q group requests groups hfirst hrest ih =>
    obtain ⟨mid, hmid, hdone⟩ := Steady.reads server sends (hframed q List.mem_cons_self) hfirst
      (fun r hr => hreads r (List.mem_append_left _ hr)) hr
    obtain ⟨t, ht, hexec, hsent, hready⟩ := ih
      (fun q' hq' => hframed q' (List.mem_cons_of_mem q hq'))
      (fun r hr => hreads r (List.mem_append_right group hr)) hdone.ready
    refine ⟨t, ?_, ?_, ?_, hready⟩
    · rw [List.flatten_cons, List.map_append, after_append, hmid, Option.bind_some, ht]
    · rw [hexec, hdone.executed, List.append_assoc, List.map_cons, List.singleton_append]
    · rw [hsent, hdone.sent, List.length_cons]
      omega

/-- In every run in which no read carries bytes of two commands and none shrinks
inside one, every command is executed once, in order, and answered. -/
theorem aligned_reads_pipelined (server : Server) {backend : Backend}
    (sends : ∀ log, 0 < backend.send log) (negative : Bool) {requests : List Request}
    {reads : List Bytes} (framed : ∀ q ∈ requests, q.Framed)
    (chunks : ∀ r ∈ reads, r ≠ [] ∧ 0 ∉ r ∧ r.length < bufSize)
    (aligned : Aligned requests reads) : AnsweredInOrder server backend negative requests reads := by
  obtain ⟨groups, rfl, hsteady⟩ := aligned
  obtain ⟨t, ht, hexec, hsent, hready⟩ :=
    Handler.groups_execute server sends framed chunks hsteady (Handler.fresh_ready negative)
  exact ⟨t, ht, hexec, hsent.trans (Nat.zero_add _), hready⟩

theorem aligned_reads_pipelined_cut_set :
    let requests : List Request := [.put (text "set") .set (text "k") 0 0 (text "wonder"), .stats]
    let reads := [text "set k 0 0 6\r", text "\nw", text "on", text "der\r\n", text "stats\r\n"]
    AnsweredInOrder .blocking .working false requests reads := by
  intro requests reads
  refine aligned_reads_pipelined .blocking working_sends false (by decide) (by decide)
    ⟨[reads.take 4, reads.drop 4], by decide, ?_⟩
  refine .cons ⟨by decide, by decide, ?_, ?_⟩ (.cons ⟨by decide, by decide, ?_, ?_⟩ .nil)
  · exact forall_prefix_of_take (by decide)
  · exact fun hbody => absurd hbody (by decide)
  · exact forall_prefix_of_take (by decide)
  · intro _ front hpre
    rw [List.prefix_iff_eq_take.mp hpre]
    have hle := hpre.length_le
    generalize front.length = k at hle
    revert k
    decide

/-- Of two commands in one read the second is never executed. -/
theorem joined_reads_not_pipelined :
    let requests : List Request := [.get [text "a"], .get [text "b"]]
    let reads := [text "get a\r\nget b\r\n"]
    ((Handler.fresh false).after .blocking .working (reads.map Input.read)).map Handler.executed =
        some [(.get [text "a"], [])] ∧
      ¬ AnsweredInOrder .blocking .working false requests reads ∧
      ¬ AnsweredInOrder .nonBlocking .working false requests reads := by
  intro requests reads
  have hcalls : ∀ server, ((Handler.fresh false).after server .working
      (reads.map Input.read)).map Handler.executed = some [(.get [text "a"], [])] := by
    intro server
    cases server <;> decide
  have hnot : ∀ server, ¬ AnsweredInOrder server .working false requests reads := by
    rintro server ⟨t, ht, hexec, _⟩
    have := hcalls server
    rw [ht, Option.map_some, hexec] at this
    exact absurd this (by decide)
  exact ⟨hcalls .blocking, hnot .blocking, hnot .nonBlocking⟩

end Afina
