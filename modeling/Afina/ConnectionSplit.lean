import Afina.ConnectionPipeline

namespace Afina

theorem encoded_length_pos (q : Request) (requests : List Request) :
    0 < ((q :: requests).map Request.encode).flatten.length := by
  rw [List.map_cons, List.flatten_cons, List.length_append]
  have := List.length_pos_iff.mpr q.encode_ne_nil
  omega

/-- The reads up to the end of a command are cut where all the reads are. -/
theorem CutAt.front {requests done later : List Request} {reads before after : List Bytes}
    (h : CutAt [] requests reads) (hrequests : requests = done ++ later)
    (hreads : reads = before ++ after)
    (hbytes : before.flatten = (done.map Request.encode).flatten) : CutAt [] done before := by
  induction done generalizing requests reads before with
  | nil => exact ⟨before, [], by simp, by simpa using hbytes, rfl⟩
  | cons q done ih =>
    obtain ⟨first, groups, hcut, hfirst, hgroups⟩ := h
    rw [hrequests] at hgroups
    cases groups with
    | nil => simp at hgroups
    | cons g groups =>
      obtain ⟨hg, hgroups⟩ := List.cons.inj hgroups
      have hall : before ++ after = (first ++ g) ++ groups.flatten := by
        rw [← hreads, hcut, List.flatten_cons, List.append_assoc]
      rcases List.append_eq_append_iff.mp hall with ⟨more, hmore, _⟩ | ⟨more, rfl, hmore⟩
      · -- the command ends with the reads: it is the last one
        have hlast : done = [] := by
          cases done with
          | nil => rfl
          | cons q' done =>
            have hlen := congrArg (fun l => l.flatten.length) hmore
            have hbefore := congrArg List.length hbytes
            have hq := congrArg List.length hg
            have hpos := encoded_length_pos q' done
            simp only [List.flatten_append, hfirst, List.nil_append, List.length_append] at hlen
            rw [List.map_cons, List.flatten_cons, List.length_append] at hbefore
            omega
        subst hlast
        exact ⟨[], [before], by simp, rfl, by simpa using hbytes⟩
      · have htail : more.flatten = (done.map Request.encode).flatten := by
          rw [List.flatten_append, List.flatten_append, hfirst, hg, List.nil_append, List.map_cons,
            List.flatten_cons] at hbytes
          exact List.append_cancel_left hbytes
        obtain ⟨first', groups', hcut', hfirst', hgroups'⟩ :=
          ih ⟨[], groups, rfl, rfl, hgroups⟩ rfl hmore htail
        refine ⟨[], (first ++ g ++ first') :: groups', by simp [hcut'], rfl, ?_⟩
        simp [hfirst, hg, hfirst', hgroups']

/-- Commands that are never mixed in one read, in whatever pieces they come, also
empty ones: after the last byte of each, exactly the commands so far have been
executed, each with its own body, and the connection waits for a header as a
fresh one does, with nothing unconsumed. The expiration time in the command of a
request is the `parsedExpire` of its own, as the parser makes it. -/
theorem split_reads_execute {uv : Libuv} (works : ∀ log, uv.asyncInit log = 0) {memory : Bytes}
    (hmemory : memory.length = connectionInputBufferSize) (negative : Bool)
    {requests : List Request} (hwf : ∀ q ∈ requests, q.WellFormed) {reads : List Bytes}
    (hreads : ∀ r ∈ reads, r.length ≤ connectionInputBufferSize)
    (hcut : CutAt [] requests reads) {passes : Nat} (hpasses : connectionInputBufferSize ≤ passes)
    {done later : List Request} (hrequests : requests = done ++ later)
    {before after : List Bytes} (hsplit : reads = before ++ after)
    (hbytes : before.flatten = (done.map Request.encode).flatten) :
    ∃ s history,
      PartialRun.run (Session.step uv passes) (Session.fresh memory negative) before =
        some (s, history) ∧
      s.executed = done.map Request.call ∧ s.conn.Ready ∧ s.conn.inputParsed = s.conn.inputUsed := by
  subst hrequests hsplit
  obtain ⟨s, history, hrun, hsync, hready⟩ := run_of_cutAt works hpasses
    (Session.fresh_sync hmemory negative) (Session.fresh_ready memory negative)
    (fun q hq => hwf q (List.mem_append_left _ hq)) (fun r hr => hreads r (List.mem_append_left _ hr))
    (hcut.front rfl rfl hbytes)
  exact ⟨s, history, hrun, by simpa using hsync.executed, hready, hsync.parsed⟩

theorem split_reads_execute_cut_append :
    let memory := List.replicate connectionInputBufferSize 7
    let requests : List Request :=
      [.put (text "append") .append (text "k") 0 5 (text "a\r\n"), .stats]
    let reads := [[], text "append k", text " 0 5 3\r\na", [], text "\r\n\r", text "\n", [],
      text "stats\r", text "\n"]
    let before := [[], text "append k", text " 0 5 3\r\na", [], text "\r\n\r", text "\n", []]
    (∀ q ∈ requests, q.WellFormed) ∧ CutAt [] requests reads ∧
      (∃ s history, PartialRun.run (Session.step .working connectionInputBufferSize)
          (Session.fresh memory true) before = some (s, history) ∧
        s.executed = [(.insert .append ⟨text "k", 0, 5⟩, text "a\r\n")] ∧ s.conn.Ready ∧
        s.conn.inputParsed = s.conn.inputUsed) := by
  intro memory requests reads before
  have hcut : CutAt [] requests reads := ⟨[[]], [[text "append k", text " 0 5 3\r\na", [],
    text "\r\n\r", text "\n"], [[], text "stats\r", text "\n"]], rfl, rfl, by decide⟩
  refine ⟨by decide, hcut, ?_⟩
  have works : ∀ log, Libuv.working.asyncInit log = 0 := fun _ => rfl
  have hrequests : requests =
      [.put (text "append") .append (text "k") 0 5 (text "a\r\n")] ++ [.stats] := rfl
  have hsplit : reads = before ++ [text "stats\r", text "\n"] := rfl
  obtain ⟨s, history, hrun, hcalls, hend⟩ := split_reads_execute works
    (List.length_replicate : memory.length = connectionInputBufferSize) true (by decide) (by decide)
    hcut (Nat.le_refl _) hrequests hsplit (by decide)
  exact ⟨s, history, hrun, hcalls.trans (by decide), hend⟩

end Afina
