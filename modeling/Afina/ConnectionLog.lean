import Afina.ConnectionReads

namespace Afina

open Scan

namespace Session

variable {uv : Libuv}

def Ended.session : Ended → Session
  | .normally s => s
  | .threw s _ => s

/-- What the header branch can do: `Parse` throws and nothing is consumed, or what
it took is consumed from the start of the buffer, and the parser is left as it
was then, whatever `Build` does. -/
theorem recvHeader_cases {s : Session} {e : Ended} (h : s.recvHeader = some e) :
    (∃ p what, e = .threw { s with conn := { s.conn with parser := p, inputParsed := 0 } } what) ∨
      ∃ p n c, s.conn.parser.parse (s.conn.input.take s.conn.inputUsed) = .returned p n ∧
        e.session = ⟨c, s.log ++ [.consumed s.conn.origin n]⟩ ∧ c.parser = p ∧
        c.runningTasks = s.conn.runningTasks ∧
        (c.state = s.conn.state ∨ c.state = .sRecvBody ∨ c.state = .sExecute) := by
  unfold recvHeader at h
  split at h
  next p err pos _ =>
    cases Option.some.inj h
    exact Or.inl ⟨p, _, rfl⟩
  next p n hp =>
    refine Or.inr ⟨p, n, ?_⟩
    dsimp only at h
    split at h
    next =>
      split at h
      next => cases h
      next => cases Option.some.inj h; exact ⟨_, hp, rfl, rfl, rfl, Or.inl rfl⟩
      next =>
        split at h
        next => cases Option.some.inj h; exact ⟨_, hp, rfl, rfl, rfl, Or.inr (Or.inl rfl)⟩
        next => cases Option.some.inj h; exact ⟨_, hp, rfl, rfl, rfl, Or.inr (Or.inr rfl)⟩
    next => cases Option.some.inj h; exact ⟨_, hp, rfl, rfl, rfl, Or.inl rfl⟩

theorem recvHeader_log {s : Session} {e : Ended} (h : s.recvHeader = some e) :
    (∃ t what, e = .threw t what ∧ t.log = s.log) ∨
      ∃ p n, s.conn.parser.parse (s.conn.input.take s.conn.inputUsed) = .returned p n ∧
        e.session.log = s.log ++ [.consumed s.conn.origin n] := by
  rcases recvHeader_cases h with ⟨p, what, rfl⟩ | ⟨p, n, c, hp, he, _⟩
  · exact Or.inl ⟨_, what, rfl, rfl⟩
  · exact Or.inr ⟨p, n, hp, by rw [he]⟩

theorem recvTrailer_log {s : Session} {c : UInt8} {what : Bytes} {next : ConnectionState} {e : Ended}
    (h : s.recvTrailer c what next = some e) : s.log <+: e.session.log := by
  obtain ⟨d, _, h⟩ := Option.bind_eq_some_iff.mp h
  split at h
  next =>
    cases Option.some.inj h
    exact List.prefix_refl _
  next =>
    cases Option.some.inj h
    exact List.prefix_append _ _

theorem branch_log {s : Session} {e : Ended} (h : s.branch = some e) : s.log <+: e.session.log := by
  unfold branch at h
  split at h
  next =>
    rcases recvHeader_log h with ⟨t, what, rfl, ht⟩ | ⟨p, n, _, hlog⟩
    · rw [← ht]
      exact List.prefix_refl _
    · rw [hlog]
      exact List.prefix_append _ _
  next =>
    cases Option.some.inj h
    exact List.prefix_append _ _
  next => exact recvTrailer_log h
  next => exact recvTrailer_log h
  next => cases Option.some.inj h; exact List.prefix_refl _
  next => cases Option.some.inj h; exact List.prefix_refl _

theorem execute_log {s : Session} {e : Ended} (h : s.execute uv = some e) :
    s.log <+: e.session.log := by
  unfold execute at h
  dsimp only at h
  split at h
  next =>
    cases Option.some.inj h
    exact List.prefix_refl _
  next =>
    obtain ⟨cmd, _, h⟩ := Option.bind_eq_some_iff.mp h
    cases Option.some.inj h
    exact List.prefix_append _ _

theorem runCommand_log {s : Session} {e : Ended} (h : s.runCommand uv = some e) :
    s.log <+: e.session.log := by
  unfold runCommand at h
  split at h
  next =>
    obtain ⟨e', he, h⟩ := Option.bind_eq_some_iff.mp h
    have hlog := execute_log he
    cases e' with
    | normally t => cases Option.some.inj h; exact hlog
    | threw t what => cases Option.some.inj h; exact hlog
  next =>
    cases Option.some.inj h
    exact List.prefix_refl _

theorem pass_log {s : Session} {e : Ended} (h : s.pass uv = some e) :
    ∃ e', s.branch = some e' ∧ e'.session.log <+: e.session.log ∧
      ∀ t what, e' = .threw t what → e = .threw t what := by
  obtain ⟨e', he, h⟩ := Option.bind_eq_some_iff.mp h
  refine ⟨e', he, ?_⟩
  cases e' with
  | normally t => exact ⟨runCommand_log h, by simp⟩
  | threw t what =>
    cases Option.some.inj h
    refine ⟨List.prefix_refl _, fun t' what' heq => heq⟩

theorem pass_extends {s : Session} {e : Ended} (h : s.pass uv = some e) :
    s.log <+: e.session.log := by
  obtain ⟨e', hbranch, hlog, _⟩ := pass_log h
  exact (branch_log hbranch).trans hlog

/-- The loop that starts in the first session comes round in the second. -/
inductive Iterates (uv : Libuv) (s : Session) : Session → Prop
  | start : Iterates uv s s
  | next {t u : Session} : Iterates uv s t → t.conn.inputParsed < t.conn.inputUsed →
      t.pass uv = some (.normally u) → Iterates uv s u

theorem Iterates.head {s t u : Session} (hlt : s.conn.inputParsed < s.conn.inputUsed)
    (hp : s.pass uv = some (.normally t)) (h : Iterates uv t u) : Iterates uv s u := by
  induction h with
  | start => exact .next .start hlt hp
  | next _ hlt' hp' ih => exact .next ih hlt' hp'

/-- The loop ends in a session that it comes round in, with nothing left to
parse, or in a pass that throws. -/
theorem readLoop_iterates {n : Nat} {s : Session} {e : Ended} (h : readLoop uv n s = .ended e) :
    ∃ t, Iterates uv s t ∧ ((e = .normally t ∧ ¬ t.conn.inputParsed < t.conn.inputUsed) ∨
      ∃ u what, t.conn.inputParsed < t.conn.inputUsed ∧ t.pass uv = some (.threw u what) ∧
        e = .threw u what) := by
  induction n generalizing s with
  | zero =>
    unfold readLoop at h
    split at h
    next => cases h
    next hidle => cases h; exact ⟨s, .start, Or.inl ⟨rfl, hidle⟩⟩
  | succ n ih =>
    unfold readLoop at h
    split at h
    next hlt =>
      split at h
      next => cases h
      next u what hp => cases h; exact ⟨s, .start, Or.inr ⟨u, what, hlt, hp, rfl⟩⟩
      next t hp =>
        obtain ⟨u, hu, hend⟩ := ih h
        exact ⟨u, hu.head hlt hp, hend⟩
    next hidle => cases h; exact ⟨s, .start, Or.inl ⟨rfl, hidle⟩⟩

theorem Iterates.log {s t : Session} (h : Iterates uv s t) : s.log <+: t.log := by
  induction h with
  | start => exact List.prefix_refl _
  | next _ _ hp ih => exact ih.trans (pass_extends hp)

theorem readLoop_log {n : Nat} {s : Session} {e : Ended} (h : readLoop uv n s = .ended e) :
    s.log <+: e.session.log := by
  obtain ⟨t, hiter, ⟨rfl, _⟩ | ⟨u, what, _, hp, rfl⟩⟩ := readLoop_iterates h
  · exact hiter.log
  · exact hiter.log.trans (pass_extends hp)

theorem fail_normally {s t : Session} {what : Bytes} (h : s.fail uv what = .ended (.normally t)) :
    t.conn.state = .sClosed ∧
      t.log = s.log ++ [.clientError (text "CLIENT_ERROR " ++ what ++ text "\r\n")] := by
  unfold fail at h
  dsimp only at h
  split at h
  next => cases h
  next => cases h; exact ⟨rfl, rfl⟩

/-- The connection is beyond repair: it has consumed a byte twice, or it is
closed after these calls. -/
def Broken (s : Session) (calls : List (Command × Bytes)) : Prop :=
  ¬ s.consumed.Nodup ∨ (s.conn.state = .sClosed ∧ s.executed = calls)

theorem consumed_append {s t : Session} {more : List Event} (h : t.log = s.log ++ more) :
    t.consumed = s.consumed ++ (⟨s.conn, more⟩ : Session).consumed := by
  simp [consumed, h]

theorem not_nodup_extend {s t : Session} (h : s.log <+: t.log) (hs : ¬ s.consumed.Nodup) :
    ¬ t.consumed.Nodup := by
  obtain ⟨more, hmore⟩ := h
  rw [consumed_append hmore.symm]
  exact fun hn => hs hn.of_append_left

/-- The pass behind a command that did not end with the buffer: `Parse` takes
bytes that were consumed before, or throws. -/
theorem branch_restart {s : Session} {e : Ended} (h : s.branch = some e) (hready : s.conn.Ready)
    (hmore : s.conn.unread ≠ []) :
    (∃ t what, e = .threw t what ∧ t.log = s.log) ∨
      ∃ n, 0 < n ∧ e.session.log = s.log ++ [.consumed s.conn.origin n] := by
  obtain ⟨negative, hp⟩ := hready.parser
  simp only [branch, hready.state] at h
  rcases recvHeader_log h with hthrew | ⟨p, n, hparse, hlog⟩
  · exact Or.inl hthrew
  · refine Or.inr ⟨n, ?_, hlog⟩
    rw [hp] at hparse
    refine consumed_pos (fun hnil => hmore ?_) rfl hparse
    rw [Connection.unread, hnil, List.drop_nil]

theorem readLoop_restart {m : Nat} {s : Session} {e : Ended} (h : readLoop uv m s = .ended e)
    (hready : s.conn.Ready) (hmore : s.conn.unread ≠ []) (htwice : s.conn.origin ∈ s.consumed) :
    (∃ t what, e = .threw t what ∧ t.log = s.log) ∨ ¬ e.session.consumed.Nodup := by
  have hlt := parsed_lt_of_unread hmore
  cases m with
  | zero => simp [readLoop, hlt] at h
  | succ m =>
    rw [readLoop, if_pos hlt] at h
    cases hp : s.pass uv with
    | none => simp [hp] at h
    | some e' =>
      rw [hp] at h
      obtain ⟨e'', hbranch, hextends, hthrow⟩ := pass_log hp
      have hlater : e'.session.log <+: e.session.log := by
        cases e' with
        | threw t what =>
          cases h
          exact List.prefix_refl _
        | normally t => exact readLoop_log h
      rcases branch_restart hbranch hready hmore with ⟨t, what, rfl, ht⟩ | ⟨n, hn, hlog⟩
      · rw [hthrow t what rfl] at h
        cases h
        exact Or.inl ⟨t, what, rfl, ht⟩
      · refine Or.inr (not_nodup_extend (hextends.trans hlater) ?_)
        rw [consumed_append hlog]
        intro hnodup
        refine (List.disjoint_of_nodup_append hnodup) htwice ?_
        simpa [consumed] using hn

theorem step_ends {s t : Session} {n : Nat} {calls : List (Command × Bytes)} (h : s.Sync n calls)
    (hopen : s.conn.state ≠ .sClosed) {data : Bytes}
    (hd : data.length ≤ connectionInputBufferSize) {passes : Nat} {r : Unit}
    (hstep : step uv passes s data = some (t, r)) :
    ∃ e, readLoop uv passes (s.loaded data) = .ended e ∧
      (e = .normally t ∨ ∃ v what, e = .threw v what ∧ t.conn.state = .sClosed ∧
        t.log = v.log ++ [.clientError (text "CLIENT_ERROR " ++ what ++ text "\r\n")]) := by
  rw [step_loaded h hopen hd] at hstep
  split at hstep
  next u hloop =>
    cases Option.some.inj hstep
    exact ⟨_, hloop, Or.inl rfl⟩
  next v what hloop =>
    split at hstep
    next u hfail =>
      cases Option.some.inj hstep
      exact ⟨_, hloop, Or.inr ⟨v, what, rfl, fail_normally hfail⟩⟩
    next => cases hstep
  next => cases hstep

/-- A read that goes on beyond the end of a command breaks the connection. -/
theorem step_beyond {q : Request} (hq : q.WellFormed) (hu : ∀ log, uv.asyncInit log = 0)
    {s t : Session} {n : Nat} {calls : List (Command × Bytes)} (h : s.Sync n calls) {rest : Bytes}
    (hin : s.conn.Inside q rest) {data w : Bytes} (hsplit : data = rest ++ w) (hw : w ≠ [])
    (hd : data.length ≤ connectionInputBufferSize) {passes : Nat} {r : Unit}
    (hstep : step uv passes s data = some (t, r)) : t.Broken (calls ++ [q.call]) := by
  obtain ⟨k, u, hk, hdrives, hend⟩ := drives_inside hq hu (loaded_inside hin data)
    (loaded_unread s data) (fun _ => Or.inl rfl)
    (Nat.lt_of_le_of_lt hd (by decide)) (by rw [loaded_length h hd]; exact hd)
    (Or.inr ⟨w, hsplit.symm⟩)
  rcases hend with ⟨rest', hne, heq, _⟩ | ⟨w', heq, hmoved, hready⟩
  · have hlen := congrArg List.length heq
    have hpos := List.length_pos_iff.mpr hne
    rw [hsplit, List.append_assoc, List.length_append, List.length_append] at hlen
    omega
  · have hww : w' = w := List.append_cancel_left (heq.symm.trans hsplit)
    subst hww
    have hmore : u.conn.unread ≠ [] := by
      rw [hmoved.unread ((loaded_unread s data).trans heq)]
      exact hw
    have htwice : u.conn.origin ∈ u.consumed := by
      rw [hmoved.consumed, hmoved.origin]
      have := List.length_pos_iff.mpr hin.rest_ne_nil
      simp [loaded, this]
    have hcalls : u.executed = calls ++ [q.call] := by
      rw [hmoved.executed]
      exact congrArg (· ++ [q.call]) h.executed
    obtain ⟨e, hloop, hresult⟩ := step_ends h hin.not_closed hd hstep
    have hk' : k ≤ passes := by
      by_contra hlt
      simp [hdrives.before passes (by omega)] at hloop
    obtain ⟨m, rfl⟩ := Nat.exists_eq_add_of_le hk'
    have hagain := readLoop_restart ((hdrives.reaches m).symm.trans hloop) hready hmore htwice
    rcases hresult with rfl | ⟨v, what, rfl, hclosed, hlog⟩
    · rcases hagain with ⟨_, _, he, _⟩ | hdup
      · cases he
      · exact Or.inl hdup
    · rcases hagain with ⟨_, _, he, hsame⟩ | hdup
      · cases he
        refine Or.inr ⟨hclosed, ?_⟩
        rw [← hcalls, executed, hlog, hsame, executed]
        simp
      · exact Or.inl (not_nodup_extend ⟨_, hlog.symm⟩ hdup)

/-- `OnAllocate` touches the buffer only. -/
theorem onAllocate_buffer {c d : Connection} (h : c.onAllocate = some d) :
    d = { c with
      input := d.input, inputUsed := d.inputUsed, inputParsed := d.inputParsed,
      origin := d.origin } := by
  unfold Connection.onAllocate at h
  split at h
  next => cases Option.some.inj h; rfl
  next => cases h

theorem onAllocate_state {c d : Connection} (h : c.onAllocate = some d) : d.state = c.state := by
  rw [onAllocate_buffer h]

/-- The session in which the loop of `OnRead` starts: what was not parsed is at
the front of the buffer and the data, at most as much as offered, behind it. -/
def arrived (s : Session) (data : Bytes) : Option Session := do
  let c ← s.conn.onAllocate
  if data.length ≤ connectionInputBufferSize - c.inputUsed then
    pure { s with conn := { c with
      input := overwrite c.input c.inputUsed data
      inputUsed := c.inputUsed + data.length } }
  else none

theorem arrived_buffer {s a : Session} {data : Bytes} (h : s.arrived data = some a) :
    a = { s with conn := { s.conn with
      input := a.conn.input, inputUsed := a.conn.inputUsed, inputParsed := a.conn.inputParsed,
      origin := a.conn.origin } } := by
  obtain ⟨c, hc, h⟩ := Option.bind_eq_some_iff.mp h
  have hbuffer := onAllocate_buffer hc
  split at h
  next =>
    cases Option.some.inj h
    rw [hbuffer]
  next => cases h

/-- What a read can do: nothing but to move the buffer of a closed connection, or
the loop, which ends or is ended by the handler for exceptions. -/
theorem step_cases {s t : Session} {data : Bytes} {passes : Nat} {r : Unit}
    (h : step uv passes s data = some (t, r)) :
    ∃ c a, s.conn.onAllocate = some c ∧ s.arrived data = some a ∧
      ((s.conn.state = .sClosed ∧
          t = { s with conn := { c with input := overwrite c.input c.inputUsed data } }) ∨
        (s.conn.state ≠ .sClosed ∧ ∃ e, readLoop uv passes a = .ended e ∧
          (e = .normally t ∨
            ∃ u what, e = .threw u what ∧ u.fail uv what = .ended (.normally t)))) := by
  obtain ⟨c, hc, h⟩ := Option.bind_eq_some_iff.mp h
  have hstate := onAllocate_state hc
  have hneg : ¬ ((data.length : Int) < 0) := by omega
  split at h
  next hfits =>
    have harrived : s.arrived data = some { s with conn := { c with
        input := overwrite c.input c.inputUsed data
        inputUsed := c.inputUsed + data.length } } := by
      simp [arrived, hc, hfits]
    refine ⟨c, _, hc, harrived, ?_⟩
    simp only [onRead, hneg, if_false, Int.toNat_natCast] at h
    split at h
    next t' heq =>
      cases Option.some.inj h
      split at heq
      next hclosed => cases heq; exact Or.inl ⟨hstate.symm.trans hclosed, rfl⟩
      next hopen =>
        refine Or.inr ⟨fun hclosed => hopen (hstate.trans hclosed), ?_⟩
        split at heq
        next u what hloop => exact ⟨_, hloop, Or.inr ⟨u, what, rfl, heq⟩⟩
        next => exact ⟨_, heq, Or.inl rfl⟩
    next => cases h
  next => cases h

theorem step_log {s t : Session} {data : Bytes} {passes : Nat} {r : Unit}
    (h : step uv passes s data = some (t, r)) :
    s.log <+: t.log ∧ (s.conn.state = .sClosed → t.conn.state = .sClosed ∧ t.log = s.log) := by
  obtain ⟨c, a, hc, ha, ⟨hclosed, rfl⟩ | ⟨hopen, e, hloop, hend⟩⟩ := step_cases h
  · exact ⟨List.prefix_refl _, fun _ => ⟨(onAllocate_state hc).trans hclosed, rfl⟩⟩
  · have hlog := readLoop_log hloop
    rw [arrived_buffer ha] at hlog
    refine ⟨?_, fun hclosed => absurd hclosed hopen⟩
    rcases hend with rfl | ⟨u, what, rfl, hfail⟩
    · exact hlog
    · exact hlog.trans ⟨_, (fail_normally hfail).2.symm⟩

theorem Broken.step {s t : Session} {calls : List (Command × Bytes)} (h : s.Broken calls)
    {data : Bytes} {passes : Nat} {r : Unit} (hs : step uv passes s data = some (t, r)) :
    t.Broken calls := by
  have hlog := step_log hs
  rcases h with hdup | ⟨hclosed, hcalls⟩
  · exact Or.inl (not_nodup_extend hlog.1 hdup)
  · refine Or.inr ⟨(hlog.2 hclosed).1, ?_⟩
    rw [← hcalls, executed, (hlog.2 hclosed).2, executed]

theorem Broken.run {s t : Session} {calls : List (Command × Bytes)} (h : s.Broken calls)
    {reads : List Bytes} {passes : Nat} {history : List (Bytes × Unit)}
    (hr : PartialRun.run (Session.step uv passes) s reads = some (t, history)) : t.Broken calls :=
  (PartialRun.run_reach hr).invariant (I := (Broken · calls)) h
    fun _ _ _ _ hu hstep => hu.step hstep

end Session

end Afina
