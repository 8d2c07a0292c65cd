import Afina.ConnectionRequests

namespace Afina

namespace Session

variable {uv : Libuv}

/-- One pass takes these bytes and leaves those of the command and of the
buffer; a command that has come to its end is executed. -/
def Goes (uv : Libuv) (q : Request) (s : Session) (eaten rest w : Bytes) : Prop :=
  ∃ t, s.pass uv = some (.normally t) ∧
    ((rest ≠ [] ∧ Moved s t eaten.length [] ∧ t.conn.Inside q rest ∧
        (t.conn.state = .sRecvHeader → w = [])) ∨
      (rest = [] ∧ Moved s t eaten.length [q.call] ∧ t.conn.Ready))

theorem runCommand_other {s : Session} (h : s.conn.state ≠ .sExecute) :
    s.runCommand uv = some (.normally s) := by
  simp [runCommand, h]

/-- What is left behind by a command that is executed. -/
def afterCommand (s : Session) (cmd : Command) : Session :=
  ready ⟨{ s.conn with cmd := none, body := [], runningTasks := s.conn.runningTasks + 1 },
    (s.record (.executed cmd s.conn.body)).log⟩

theorem moved_afterCommand (s : Session) (cmd : Command) :
    Moved s (s.afterCommand cmd) 0 [(cmd, s.conn.body)] :=
  ⟨rfl, rfl, rfl, rfl, by simp [afterCommand, ready, Session.consumed, record],
    by simp [afterCommand, ready, Session.executed, record]⟩

theorem afterCommand_ready (s : Session) (cmd : Command) : (s.afterCommand cmd).conn.Ready :=
  ⟨rfl, ⟨_, rfl⟩, rfl, rfl⟩

theorem runCommand_execute {s : Session} {cmd : Command} (hu : ∀ log, uv.asyncInit log = 0)
    (hs : s.conn.state = .sExecute) (hc : s.conn.cmd = some cmd) :
    ∃ t, s.runCommand uv = some (.normally t) ∧ Moved s t 0 [(cmd, s.conn.body)] ∧
      t.conn.Ready := by
  refine ⟨_, ?_, s.moved_afterCommand cmd, s.afterCommand_ready cmd⟩
  simp [runCommand, hs, execute, hu, hc, afterCommand, record]

theorem runCommand_normally {s t : Session} (h : s.runCommand uv = some (.normally t)) :
    (s.conn.state ≠ .sExecute ∧ t = s) ∨
      (s.conn.state = .sExecute ∧ ∃ cmd, s.conn.cmd = some cmd ∧ t = s.afterCommand cmd) := by
  unfold runCommand at h
  split at h
  next hs =>
    obtain ⟨e, he, h⟩ := Option.bind_eq_some_iff.mp h
    unfold execute at he
    dsimp only at he
    split at he
    next =>
      cases Option.some.inj he
      cases h
    next =>
      obtain ⟨cmd, hc, he⟩ := Option.bind_eq_some_iff.mp he
      cases Option.some.inj he
      cases h
      exact Or.inr ⟨hs, cmd, hc, rfl⟩
  next hs =>
    cases h
    exact Or.inl ⟨hs, rfl⟩

theorem pass_of_branch {s t : Session} (h : s.branch = some (.normally t)) :
    s.pass uv = t.runCommand uv := by
  simp [pass, h]

theorem moved_of_record {s : Session} {c : Connection} {start n : Nat}
    (input : c.input = s.conn.input) (used : c.inputUsed = s.conn.inputUsed)
    (origin : c.origin = s.conn.origin) (parsed : c.inputParsed = s.conn.inputParsed + n)
    (hstart : start = s.conn.origin + s.conn.inputParsed) :
    Moved s ⟨c, (s.record (.consumed start n)).log⟩ n [] := by
  refine ⟨input, used, origin, parsed, ?_, ?_⟩
  · rw [← hstart]
    exact consumed_record s start n
  · rw [List.append_nil]
    exact executed_record s start n

theorem goes_of_complete {q : Request} (hu : ∀ log, uv.asyncInit log = 0) {s t : Session}
    {eaten w : Bytes} (hbranch : s.branch = some (.normally t)) (hmoved : Moved s t eaten.length [])
    (hstate : t.conn.state = .sExecute) (hcmd : t.conn.cmd = some q.command)
    (hbody : t.conn.body = q.body) : Goes uv q s eaten [] w := by
  obtain ⟨u, hrun, hdone, hready⟩ := runCommand_execute hu hstate hcmd
  rw [hbody] at hdone
  exact ⟨u, by rw [pass_of_branch hbranch, hrun], Or.inr ⟨rfl, hmoved.trans hdone, hready⟩⟩

theorem goes_of_inside {q : Request} {s t : Session} {eaten rest w : Bytes}
    (hbranch : s.branch = some (.normally t)) (hmoved : Moved s t eaten.length [])
    (hinside : t.conn.Inside q rest) (hne : rest ≠ [])
    (hstate : t.conn.state = .sRecvHeader → w = []) (hexec : t.conn.state ≠ .sExecute) :
    Goes uv q s eaten rest w :=
  ⟨t, by rw [pass_of_branch hbranch, runCommand_other hexec],
    Or.inl ⟨hne, hmoved, hinside, hstate⟩⟩

/-- The buffer ends inside the header. -/
theorem pass_header_part (uv : Libuv) {q : Request} (hq : q.Framed) {s : Session} {pre w post : Bytes}
    {negative : Bool} (state : s.conn.state = .sRecvHeader) (split : q.header = pre ++ (w ++ post))
    (more : post ≠ [])
    (scanned : (Parser.fresh negative).parse pre = .returned s.conn.parser pre.length)
    (incomplete : s.conn.parser.parseComplete = false) (empty : s.conn.body = [])
    (hstart : s.conn.inputParsed = 0) (hbuffer : s.conn.input.take s.conn.inputUsed = w) :
    ∃ t, s.pass uv = some (.normally t) ∧ Moved s t w.length [] ∧
      t.conn.Inside q (post ++ q.payload) ∧ t.conn.state = .sRecvHeader := by
  obtain ⟨p, hp, hinc, hscan⟩ := hq.parse_part split more scanned incomplete
  have hbranch : s.branch = some (.normally ⟨{ s.conn with parser := p, inputParsed := w.length },
      (s.record (.consumed s.conn.origin w.length)).log⟩) := by
    simp [branch, state, recvHeader, hbuffer, hp, hinc]
  refine ⟨_, (pass_of_branch hbranch).trans (runCommand_other (by simp [state])),
    moved_of_record rfl rfl rfl ?_ ?_, ?_, state⟩
  · simp [hstart]
  · simp [hstart]
  · exact .header state (by rw [split, List.append_assoc]) more hscan hinc empty

/-- The header of a command with no bytes of body ends in the buffer: the command
is to be executed at once. -/
theorem branch_header_end {q : Request} (hq : q.Framed) (hb : q.body = []) {s : Session}
    {pre post w : Bytes} {negative : Bool} (state : s.conn.state = .sRecvHeader)
    (split : q.header = pre ++ post)
    (scanned : (Parser.fresh negative).parse pre = .returned s.conn.parser pre.length)
    (incomplete : s.conn.parser.parseComplete = false) (empty : s.conn.body = [])
    (hstart : s.conn.inputParsed = 0)
    (hbuffer : s.conn.input.take s.conn.inputUsed = post ++ w) :
    ∃ t, s.branch = some (.normally t) ∧ Moved s t post.length [] ∧ t.conn.state = .sExecute ∧
      t.conn.cmd = some q.command ∧ t.conn.body = [] := by
  obtain ⟨p, hp, hcomplete, hbuild⟩ := hq.parse_rest split scanned incomplete w
  refine ⟨⟨{ s.conn with
      parser := p, inputParsed := post.length, cmd := some q.command, bodySize := 0,
      state := .sExecute }, (s.record (.consumed s.conn.origin post.length)).log⟩,
    ?_, moved_of_record rfl rfl rfl ?_ ?_, rfl, rfl, empty⟩
  · simp [branch, state, recvHeader, hbuffer, hp, hcomplete, hbuild, hb]
  · simp [hstart]
  · simp [hstart]

theorem goes_header {q : Request} (hq : q.WellFormed) (hu : ∀ log, uv.asyncInit log = 0)
    {s : Session} {pre post : Bytes} {negative : Bool} (state : s.conn.state = .sRecvHeader)
    (split : q.header = pre ++ post) (more : post ≠ [])
    (scanned : (Parser.fresh negative).parse pre = .returned s.conn.parser pre.length)
    (incomplete : s.conn.parser.parseComplete = false) (empty : s.conn.body = [])
    (hstart : s.conn.inputParsed = 0)
    {w : Bytes} (hw : s.conn.unread = w) (hne : w ≠ [])
    (hcmp : w <+: post ++ q.payload ∨ post ++ q.payload <+: w) :
    ∃ eaten rest w', eaten ≠ [] ∧ w = eaten ++ w' ∧ post ++ q.payload = eaten ++ rest ∧
      Goes uv q s eaten rest w' := by
  have hbuffer : s.conn.input.take s.conn.inputUsed = w := by
    rw [← hw, Connection.unread, hstart, List.drop_zero]
  have horder : w <+: post ∨ post <+: w := by
    rcases hcmp with hcmp | hcmp
    · exact List.prefix_or_prefix_of_prefix hcmp (List.prefix_append _ _)
    · exact Or.inr ((List.prefix_append _ _).trans hcmp)
  by_cases hfull : post <+: w
  · -- the header ends in the buffer
    obtain ⟨w', rfl⟩ := hfull
    refine ⟨post, q.payload, w', more, rfl, rfl, ?_⟩
    rcases hq.payload_cases with ⟨hb, hpay⟩ | ⟨hb, hpay⟩
    · obtain ⟨t, hbranch, hmoved, hstate, hcmd, hbody⟩ :=
        branch_header_end hq.framed hb state split scanned incomplete empty hstart hbuffer
      rw [hpay]
      exact goes_of_complete hu hbranch hmoved hstate hcmd (hbody.trans hb.symm)
    · obtain ⟨p, hp, hcomplete, hbuild⟩ := hq.framed.parse_rest split scanned incomplete w'
      have hsize : (0 : UInt32) < UInt32.ofNat q.body.length := by
        rw [UInt32.lt_iff_toNat_lt, UInt32.toNat_ofNat_of_lt' hq.framed.body_lt]
        exact List.length_pos_iff.mpr hb
      rw [hpay]
      refine goes_of_inside (t := ⟨{ s.conn with
          parser := p, inputParsed := post.length, cmd := some q.command,
          bodySize := UInt32.ofNat q.body.length, body := [],
          state := .sRecvBody }, (s.record (.consumed s.conn.origin post.length)).log⟩)
        ?_ (moved_of_record rfl rfl rfl ?_ ?_) ?_ (by simp) (by simp) (by simp)
      · simp [branch, state, recvHeader, hbuffer, hp, hcomplete, hbuild, hsize]
      · simp [hstart]
      · simp [hstart]
      · exact .body rfl rfl hb rfl rfl
  · -- the buffer ends inside the header
    obtain ⟨post', rfl⟩ := horder.resolve_right hfull
    have hmore : post' ≠ [] := by
      rintro rfl
      exact hfull (by simp)
    obtain ⟨t, hpass, hmoved, hinside, _⟩ := pass_header_part uv hq.framed state split hmore
      scanned incomplete empty hstart hbuffer
    exact ⟨w, post' ++ q.payload, [], hne, by simp, by simp, t, hpass,
      Or.inl ⟨by simp [hmore], hmoved, hinside, fun _ => rfl⟩⟩

theorem unread_eq (c : Connection) :
    c.unread = (c.input.drop c.inputParsed).take (c.inputUsed - c.inputParsed) :=
  List.drop_take

theorem goes_body {q : Request} (hq : q.WellFormed) {s : Session} {left : Bytes}
    (state : s.conn.state = .sRecvBody) (split : q.body = s.conn.body ++ left) (more : left ≠ [])
    (size : s.conn.bodySize = UInt32.ofNat left.length) (cmd : s.conn.cmd = some q.command)
    (hsmall : s.conn.inputUsed < 2 ^ 32) (hlen : s.conn.inputUsed ≤ s.conn.input.length)
    {w : Bytes} (hw : s.conn.unread = w) (hne : w ≠ [])
    (hcmp : w <+: left ++ [cr, lf] ∨ left ++ [cr, lf] <+: w) :
    ∃ eaten rest w', eaten ≠ [] ∧ w = eaten ++ w' ∧ left ++ [cr, lf] = eaten ++ rest ∧
      Goes uv q s eaten rest w' := by
  rw [unread_eq] at hw
  have hcount : s.conn.inputUsed - s.conn.inputParsed = w.length := by
    rw [← hw, List.length_take, List.length_drop]
    omega
  rw [hcount] at hw
  have hleft : left.length < 2 ^ 32 := by
    have := hq.framed.body_lt
    rw [split, List.length_append] at this
    omega
  have horder : w <+: left ∨ left <+: w := by
    rcases hcmp with hcmp | hcmp
    · exact List.prefix_or_prefix_of_prefix hcmp (List.prefix_append _ _)
    · exact Or.inr ((List.prefix_append _ _).trans hcmp)
  have hcopy : min (UInt32.ofNat w.length) (UInt32.ofNat left.length) =
      UInt32.ofNat (min w.length left.length) := ofNat_min (by omega) hleft
  by_cases hfull : left <+: w
  · -- the body ends in the buffer
    have hle := hfull.length_le
    obtain ⟨w', heq⟩ := hfull
    have htake : (s.conn.input.drop s.conn.inputParsed).take left.length = left := by
      have := congrArg (List.take left.length) hw
      rwa [List.take_take, min_eq_left hle, ← heq, List.take_left] at this
    rw [min_eq_right hle] at hcopy
    refine ⟨left, [cr, lf], w', more, heq.symm, rfl, ?_⟩
    refine goes_of_inside (t := ⟨{ s.conn with
        body := q.body, bodySize := 0, inputParsed := s.conn.inputParsed + left.length,
        state := .sRecvTrailerCR },
        (s.record (.consumed (s.conn.origin + s.conn.inputParsed) left.length)).log⟩)
      ?_ (moved_of_record rfl rfl rfl rfl rfl) (.trailerCR rfl rfl cmd) (by simp) (by simp) (by simp)
    simp [branch, state, recvBody, hcount, size, hcopy, htake, split,
      UInt32.toNat_ofNat_of_lt' hleft]
  · -- the buffer ends inside the body
    obtain ⟨left', rfl⟩ := horder.resolve_right hfull
    have hmore : left' ≠ [] := by
      rintro rfl
      exact hfull (by simp)
    have hsub : UInt32.ofNat (w ++ left').length - UInt32.ofNat w.length =
        UInt32.ofNat left'.length := by
      rw [List.length_append, Nat.add_comm, UInt32.ofNat_add, UInt32.add_sub_cancel]
    have hpos : UInt32.ofNat left'.length ≠ 0 := by
      rw [List.length_append] at hleft
      have hlt : left'.length < 2 ^ 32 := by omega
      rw [Ne, ← UInt32.toNat_inj, UInt32.toNat_ofNat_of_lt' hlt]
      exact List.length_eq_zero_iff.not.mpr hmore
    rw [min_eq_left (by simp)] at hcopy
    refine ⟨w, left' ++ [cr, lf], [], hne, by simp, by simp, ?_⟩
    refine goes_of_inside (t := ⟨{ s.conn with
        body := s.conn.body ++ w, bodySize := UInt32.ofNat left'.length,
        inputParsed := s.conn.inputParsed + w.length },
        (s.record (.consumed (s.conn.origin + s.conn.inputParsed) w.length)).log⟩)
      ?_ (moved_of_record rfl rfl rfl rfl rfl) (.body state ?_ hmore rfl cmd) (by simp) (by simp)
      (by simp [state])
    · simp only [branch, state, recvBody, hcount, size, hcopy, hsub, hpos, hw, if_false,
        UInt32.toNat_ofNat_of_lt' (show w.length < 2 ^ 32 by omega)]
    · rw [split, List.append_assoc]

theorem recvTrailer_expected {s : Session} {c : UInt8} {w : Bytes} (hw : s.conn.unread = c :: w)
    (what : Bytes) (next : ConnectionState) :
    s.recvTrailer c what next = some (.normally ⟨{ s.conn with
      inputParsed := s.conn.inputParsed + 1, state := next },
      (s.record (.consumed (s.conn.origin + s.conn.inputParsed) 1)).log⟩) := by
  have hget : s.conn.input[s.conn.inputParsed]? = some c := by
    rw [unread_eq] at hw
    have := congrArg (·[0]?) hw
    simp only [List.getElem?_take, List.getElem?_drop, List.getElem?_cons_zero, Nat.add_zero] at this
    split at this
    · exact this
    · cases this
  simp [recvTrailer, hget]

theorem cons_of_comparable {c : UInt8} {rest w : Bytes} (hne : w ≠ [])
    (hcmp : w <+: c :: rest ∨ c :: rest <+: w) : ∃ w', w = c :: w' := by
  obtain ⟨d, w', rfl⟩ := List.exists_cons_of_ne_nil hne
  rcases hcmp with h | h
  · exact ⟨w', by rw [(List.cons_prefix_cons.mp h).1]⟩
  · exact ⟨w', by rw [(List.cons_prefix_cons.mp h).1]⟩

/-- One pass inside a command, on bytes that go on with it. `Parse` reads the
buffer from its start, so a header must start there. -/
theorem goes_inside {q : Request} (hq : q.WellFormed) (hu : ∀ log, uv.asyncInit log = 0)
    {s : Session} {rest : Bytes} (h : s.conn.Inside q rest)
    (hstart : s.conn.state = .sRecvHeader → s.conn.inputParsed = 0)
    (hsmall : s.conn.inputUsed < 2 ^ 32) (hlen : s.conn.inputUsed ≤ s.conn.input.length)
    {w : Bytes} (hw : s.conn.unread = w) (hne : w ≠ []) (hcmp : w <+: rest ∨ rest <+: w) :
    ∃ eaten rest' w', eaten ≠ [] ∧ w = eaten ++ w' ∧ rest = eaten ++ rest' ∧
      Goes uv q s eaten rest' w' := by
  cases h with
  | header state split more scanned incomplete empty =>
    exact goes_header hq hu state split more scanned incomplete empty (hstart state) hw hne hcmp
  | body state split more size cmd =>
    exact goes_body hq state split more size cmd hsmall hlen hw hne hcmp
  | trailerCR state body cmd =>
    obtain ⟨w', rfl⟩ := cons_of_comparable hne hcmp
    have hbranch := recvTrailer_expected hw (text "Invalid chat, \\r expected") .sRecvTrailerLF
    rw [show s.recvTrailer cr _ _ = s.branch by simp only [branch, state, recvTrailerCR]] at hbranch
    exact ⟨[cr], [lf], w', by simp, rfl, rfl, goes_of_inside hbranch
      (moved_of_record rfl rfl rfl rfl rfl) (.trailerLF rfl body cmd) (by simp) (by simp) (by simp)⟩
  | trailerLF state body cmd =>
    obtain ⟨w', rfl⟩ := cons_of_comparable hne hcmp
    have hbranch := recvTrailer_expected hw (text "Invalid chat, \\n expected") .sExecute
    rw [show s.recvTrailer lf _ _ = s.branch by simp only [branch, state, recvTrailerLF]] at hbranch
    exact ⟨[lf], [], w', by simp, rfl, rfl, goes_of_complete hu hbranch
      (moved_of_record rfl rfl rfl rfl rfl) rfl cmd body⟩

theorem readLoop_idle {s : Session} (h : ¬ s.conn.inputParsed < s.conn.inputUsed) (n : Nat) :
    readLoop uv n s = .ended (.normally s) := by
  cases n <;> simp [readLoop, h]

theorem parsed_lt_of_unread {c : Connection} (h : c.unread ≠ []) : c.inputParsed < c.inputUsed := by
  by_contra hle
  refine h ?_
  rw [Connection.unread, List.drop_eq_nil_iff, List.length_take]
  omega

structure Drives (uv : Libuv) (s : Session) (k : Nat) (t : Session) : Prop where
  reaches : ∀ n, readLoop uv (k + n) s = readLoop uv n t
  before : ∀ n, n < k → readLoop uv n s = .running

theorem Drives.refl (s : Session) : Drives uv s 0 s :=
  ⟨fun n => by rw [Nat.zero_add], fun n hn => absurd hn (Nat.not_lt_zero n)⟩

theorem Drives.pass {s t u : Session} {k : Nat} (hlt : s.conn.inputParsed < s.conn.inputUsed)
    (hp : s.pass uv = some (.normally t)) (h : Drives uv t k u) : Drives uv s (k + 1) u := by
  refine ⟨fun n => ?_, fun n hn => ?_⟩
  · rw [Nat.add_right_comm, readLoop, if_pos hlt, hp]
    exact h.reaches n
  · cases n with
    | zero => simp [readLoop, hlt]
    | succ n =>
      rw [readLoop, if_pos hlt, hp]
      exact h.before n (by omega)

/-- The loop inside a command: it takes the whole buffer, or it takes the rest
of the command and executes it. -/
theorem drives_inside {q : Request} (hq : q.WellFormed) (hu : ∀ log, uv.asyncInit log = 0)
    {s : Session} {rest : Bytes} (h : s.conn.Inside q rest) {w : Bytes} (hw : s.conn.unread = w)
    (hstart : s.conn.state = .sRecvHeader → s.conn.inputParsed = 0 ∨ w = [])
    (hsmall : s.conn.inputUsed < 2 ^ 32) (hlen : s.conn.inputUsed ≤ s.conn.input.length)
    (hcmp : w <+: rest ∨ rest <+: w) :
    ∃ k t, k ≤ w.length ∧ Drives uv s k t ∧
      ((∃ rest', rest' ≠ [] ∧ rest = w ++ rest' ∧ Moved s t w.length [] ∧ t.conn.Inside q rest') ∨
        ∃ w', w = rest ++ w' ∧ Moved s t rest.length [q.call] ∧ t.conn.Ready) := by
  induction hn : w.length using Nat.strong_induction_on generalizing s rest w with
  | _ n ih =>
    subst hn
    by_cases hne : w = []
    · subst hne
      exact ⟨0, s, Nat.zero_le _, .refl s, Or.inl ⟨rest, h.rest_ne_nil, rfl, .refl s, h⟩⟩
    · obtain ⟨eaten, rest', w', heaten, rfl, rfl, t, hpass, hgoes⟩ := goes_inside hq hu h
        (fun hs => (hstart hs).resolve_right hne) hsmall hlen hw hne hcmp
      have hlt := parsed_lt_of_unread (hw ▸ hne)
      have hpos := List.length_pos_iff.mpr heaten
      rcases hgoes with ⟨hrest, hmoved, hinside, hheader⟩ | ⟨rfl, hmoved, hready⟩
      · have hcmp' : w' <+: rest' ∨ rest' <+: w' := by
          simpa [List.prefix_append_right_inj] using hcmp
        obtain ⟨k, u, hk, hdrives, hend⟩ := ih w'.length (by rw [List.length_append]; omega)
          hinside (hmoved.unread hw) (fun hs => Or.inr (hheader hs)) (by rw [hmoved.used]; exact hsmall)
          (by rw [hmoved.used, hmoved.input]; exact hlen) hcmp' rfl
        refine ⟨k + 1, u, by rw [List.length_append]; omega, hdrives.pass hlt hpass, ?_⟩
        rcases hend with ⟨rest'', hne'', rfl, hmoved', hinside'⟩ | ⟨w'', rfl, hmoved', hready⟩
        · refine Or.inl ⟨rest'', hne'', by simp, ?_, hinside'⟩
          rw [List.length_append]
          exact hmoved.trans hmoved'
        · refine Or.inr ⟨w'', by simp, ?_, hready⟩
          rw [List.length_append]
          exact hmoved.trans hmoved'
      · refine ⟨1, t, by rw [List.length_append]; omega, (Drives.refl t).pass hlt hpass,
          Or.inr ⟨w', by simp, ?_, hready⟩⟩
        rw [List.append_nil]
        exact hmoved

end Session

end Afina
