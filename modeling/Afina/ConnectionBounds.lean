import Afina.ConnectionLoop
import Afina.ConnectionPipeline
import Afina.ParserNames
import Afina.WorkerMoves

namespace Afina

open Scan

namespace Connection

/-- The byte count that the header in the parser declares, as `Build` gives it. -/
def declared (c : Connection) : Nat := c.parser.bytes.toNat

structure Fits (c : Connection) : Prop where
  buffer : c.input.length = connectionInputBufferSize
  parsed : c.inputParsed ≤ c.inputUsed
  used : c.inputUsed ≤ connectionInputBufferSize

/-- Both offsets stay in the buffer, and the body and what is missing of it
make up the declared count. -/
structure Bounded (c : Connection) : Prop extends c.Fits where
  receiving : c.state = .sRecvBody → c.body.length + c.bodySize.toNat = c.declared
  trailing : c.state = .sRecvTrailerCR ∨ c.state = .sRecvTrailerLF → c.bodySize = 0

/-- What `Execute` relies on. -/
structure Executable (c : Connection) : Prop extends c.Fits where
  state : c.state = .sExecute
  cmd : c.cmd.isSome
  body : c.body.length = c.declared

/-- What holds when the loop comes round. -/
structure Sound (c : Connection) : Prop extends c.Bounded where
  idle : c.state ≠ .sExecute
  header : c.state = .sRecvHeader →
    c.parser.Named ∧ c.parser.Keyed ∧ c.parser.parseComplete = false ∧ c.body = []
  cmd : c.state ∈ [.sRecvBody, .sRecvTrailerCR, .sRecvTrailerLF] → c.cmd.isSome
  whole : c.state ∈ [.sRecvTrailerCR, .sRecvTrailerLF] → c.body.length = c.declared

theorem Fits.sound_of_closed {c : Connection} (h : c.Fits) (hs : c.state = .sClosed) :
    c.Sound := by
  refine ⟨⟨h, ?_, ?_⟩, ?_, ?_, ?_, ?_⟩ <;> simp [hs]

theorem fresh_sound {memory : Bytes} (h : memory.length = connectionInputBufferSize)
    (negative : Bool) : (fresh memory negative).Sound where
  buffer := h
  parsed := Nat.le_refl 0
  used := Nat.zero_le _
  receiving := by simp [fresh]
  trailing := by simp [fresh]
  idle := by simp [fresh]
  header _ := ⟨Parser.fresh_named negative, Parser.fresh_keyed negative, rfl, rfl⟩
  cmd := by simp [fresh]
  whole := by simp [fresh]

end Connection

namespace Session

variable {uv : Libuv}

/-- The header branch: `Parse` stays inside the bytes it is given, and `Build`
returns a command and the declared size, or throws. -/
theorem recvHeader_sound {s : Session} (h : s.conn.Sound) (hs : s.conn.state = .sRecvHeader) :
    ∃ e, s.recvHeader = some e ∧ e.session.conn.Fits ∧
      ∀ m, e = .normally m → m.conn.Sound ∨ m.conn.Executable := by
  obtain ⟨hnamed, hkeyed, _, hbody⟩ := h.header hs
  unfold recvHeader
  split
  next p e pos _ =>
    refine ⟨_, rfl, ⟨h.buffer, Nat.zero_le _, h.used⟩, ?_⟩
    intro m he
    cases he
  next p n hp =>
    have hn : n ≤ s.conn.inputUsed := by
      have := consumed_le_length hp
      rw [List.length_take] at this
      omega
    have hnamed' := hnamed.parse hp
    have hkeyed' := hkeyed.parse hp
    dsimp only
    split
    next hcomplete =>
      have hline := hnamed'.complete hcomplete
      obtain ⟨⟨r, size⟩, hbuild⟩ := Option.isSome_iff_exists.mp (hkeyed'.build_isSome s.conn.bodySize)
      have hsize := Parser.build_bytes hline hbuild
      subst hsize
      simp only [record, hbuild]
      cases r with
      | error what =>
        refine ⟨_, rfl, ⟨h.buffer, hn, h.used⟩, ?_⟩
        intro m he
        cases he
      | ok cmd =>
        have hcmd := Parser.build_ok_isSome hline hbuild
        dsimp only
        split
        next hpos =>
          refine ⟨_, rfl, ⟨h.buffer, hn, h.used⟩, ?_⟩
          intro m he
          cases he
          refine Or.inl ⟨⟨⟨h.buffer, hn, h.used⟩, ?_, ?_⟩, ?_, ?_, ?_, ?_⟩
          · intro _
            simp [Connection.declared]
          · simp
          · simp
          · simp
          · intro _
            exact hcmd
          · simp
        next hzero =>
          refine ⟨_, rfl, ⟨h.buffer, hn, h.used⟩, ?_⟩
          intro m he
          cases he
          refine Or.inr ⟨⟨h.buffer, hn, h.used⟩, rfl, hcmd, ?_⟩
          have hnone : p.bytes.toNat = 0 := by
            rw [UInt32.lt_iff_toNat_lt] at hzero
            simpa using hzero
          simp [Connection.declared, hbody, hnone]
    next hincomplete =>
      refine ⟨_, rfl, ⟨h.buffer, hn, h.used⟩, ?_⟩
      intro m he
      cases he
      refine Or.inl ⟨⟨⟨h.buffer, hn, h.used⟩, ?_, ?_⟩, ?_, ?_, ?_, ?_⟩
      · simp [hs]
      · simp [hs]
      · simp [hs]
      · intro _
        exact ⟨hnamed', hkeyed', Bool.eq_false_iff.mpr hincomplete, hbody⟩
      · simp [hs]
      · simp [hs]

/-- The body branch: the room in the buffer is far below 2^32, so what is copied
is the smaller of the bytes that are there and the bytes that are missing. -/
theorem recvBody_sound {s : Session} (h : s.conn.Sound) (hs : s.conn.state = .sRecvBody) :
    ∃ m, s.recvBody = some (.normally m) ∧ m.conn.Sound := by
  have hparsed := h.parsed
  have hused := h.used
  have hbuffer := h.buffer
  have hsum := h.receiving hs
  have hroom : connectionInputBufferSize < 2 ^ 32 := by decide
  have hsize := UInt32.toNat_lt s.conn.bodySize
  obtain ⟨n, hn, hcopy, hmissing⟩ : ∃ n : UInt32,
      min (UInt32.ofNat (s.conn.inputUsed - s.conn.inputParsed)) s.conn.bodySize = n ∧
        n.toNat ≤ s.conn.inputUsed - s.conn.inputParsed ∧ n ≤ s.conn.bodySize := by
    have hmin := ofNat_min (a := s.conn.inputUsed - s.conn.inputParsed) (by omega) hsize
    rw [UInt32.ofNat_toNat] at hmin
    have hsmall : min (s.conn.inputUsed - s.conn.inputParsed) s.conn.bodySize.toNat < 2 ^ 32 := by
      omega
    refine ⟨_, hmin, ?_, ?_⟩
    · rw [UInt32.toNat_ofNat_of_lt' hsmall]
      exact min_le_left _ _
    · rw [UInt32.le_iff_toNat_le, UInt32.toNat_ofNat_of_lt' hsmall]
      exact min_le_right _ _
  have hleft : (s.conn.bodySize - n).toNat = s.conn.bodySize.toNat - n.toNat :=
    UInt32.toNat_sub_of_le _ _ hmissing
  have hmissing' := UInt32.le_iff_toNat_le.mp hmissing
  have hbody : (s.conn.body ++ (s.conn.input.drop s.conn.inputParsed).take n.toNat).length =
      s.conn.body.length + n.toNat := by
    rw [List.length_append, List.length_take, List.length_drop]
    omega
  refine ⟨⟨{ s.conn with
      body := s.conn.body ++ (s.conn.input.drop s.conn.inputParsed).take n.toNat
      bodySize := s.conn.bodySize - n
      inputParsed := s.conn.inputParsed + n.toNat
      state := if s.conn.bodySize - n = 0 then .sRecvTrailerCR else s.conn.state },
    (s.record (.consumed (s.conn.origin + s.conn.inputParsed) n.toNat)).log⟩,
    by simp only [recvBody, hn], ?_⟩
  have hfits : s.conn.inputParsed + n.toNat ≤ s.conn.inputUsed := by omega
  by_cases hzero : s.conn.bodySize - n = 0
  · -- the last bytes of the body
    have hwhole : s.conn.body.length + n.toNat = s.conn.declared := by
      rw [hzero, UInt32.toNat_zero] at hleft
      omega
    rw [if_pos hzero]
    refine ⟨⟨⟨h.buffer, hfits, h.used⟩, ?_, fun _ => hzero⟩, ?_, ?_, ?_, ?_⟩
    · simp
    · simp
    · simp
    · exact fun _ => h.cmd (by simp [hs])
    · exact fun _ => hbody.trans hwhole
  · rw [if_neg hzero]
    refine ⟨⟨⟨h.buffer, hfits, h.used⟩, ?_, ?_⟩, ?_, ?_, ?_, ?_⟩
    · intro _
      dsimp only
      rw [hbody, hleft]
      show _ = s.conn.declared
      omega
    · simp [hs]
    · simp [hs]
    · simp [hs]
    · exact fun _ => h.cmd (by simp [hs])
    · simp [hs]

theorem recvTrailer_sound {s : Session} (h : s.conn.Sound)
    (hlt : s.conn.inputParsed < s.conn.inputUsed) (c : UInt8) (what : Bytes)
    (next : ConnectionState) :
    ∃ e, s.recvTrailer c what next = some e ∧ e.session.conn.Fits ∧
      ∀ m, e = .normally m → m.conn = { s.conn with
        inputParsed := s.conn.inputParsed + 1, state := next } := by
  have hused := h.used
  have hin : s.conn.inputParsed < s.conn.input.length := by rw [h.buffer]; omega
  simp only [recvTrailer, List.getElem?_eq_getElem hin, Option.bind_eq_bind, Option.bind_some]
  split
  next =>
    refine ⟨_, rfl, h.toFits, ?_⟩
    intro m he
    cases he
  next =>
    refine ⟨_, rfl, ⟨h.buffer, hlt, h.used⟩, ?_⟩
    intro m he
    cases he
    rfl

/-- One branch of the loop, in every state it can be in. -/
theorem branch_sound {s : Session} (h : s.conn.Sound)
    (hlt : s.conn.inputParsed < s.conn.inputUsed) :
    ∃ e, s.branch = some e ∧ e.session.conn.Fits ∧
      ∀ m, e = .normally m → m.conn.Sound ∨ m.conn.Executable := by
  unfold branch
  split
  next hs => exact recvHeader_sound h hs
  next hs =>
    obtain ⟨m, hm, hsound⟩ := recvBody_sound h hs
    refine ⟨_, hm, hsound.toFits, ?_⟩
    intro m' he
    cases he
    exact Or.inl hsound
  next hs =>
    obtain ⟨e, he, hfits, hnormal⟩ := recvTrailer_sound h hlt cr (text "Invalid chat, \\r expected")
      .sRecvTrailerLF
    refine ⟨e, he, hfits, ?_⟩
    rintro m rfl
    have hm := hnormal m rfl
    refine Or.inl ⟨⟨hfits, ?_, ?_⟩, ?_, ?_, ?_, ?_⟩
    · simp [hm]
    · intro _
      rw [hm]
      exact h.trailing (Or.inl hs)
    · simp [hm]
    · simp [hm]
    · intro _
      rw [hm]
      exact h.cmd (by simp [hs])
    · intro _
      rw [hm]
      exact h.whole (by simp [hs])
  next hs =>
    obtain ⟨e, he, hfits, hnormal⟩ := recvTrailer_sound h hlt lf (text "Invalid chat, \\n expected")
      .sExecute
    refine ⟨e, he, hfits, ?_⟩
    rintro m rfl
    have hm := hnormal m rfl
    refine Or.inr ⟨hfits, by simp [hm], ?_, ?_⟩
    · rw [hm]
      exact h.cmd (by simp [hs])
    · rw [hm]
      exact h.whole (by simp [hs])
  next hs => exact absurd hs h.idle
  next =>
    refine ⟨_, rfl, h.toFits, ?_⟩
    intro m he
    cases he
    exact Or.inl h

theorem runCommand_executable (uv : Libuv) {s : Session} (h : s.conn.Executable) :
    ∃ e, s.runCommand uv = some e ∧ e.session.conn.Fits ∧
      ∀ m, e = .normally m → m.conn.Sound := by
  obtain ⟨cmd, hcmd⟩ := Option.isSome_iff_exists.mp h.cmd
  by_cases hasync : uv.asyncInit s.log = 0
  · refine ⟨_, by simp [runCommand, h.state, execute, hasync, hcmd]; rfl, ?_, ?_⟩
    · exact ⟨h.buffer, h.parsed, h.used⟩
    intro m he
    cases he
    refine ⟨⟨⟨h.buffer, h.parsed, h.used⟩, ?_, ?_⟩, ?_, ?_, ?_, ?_⟩
    · simp [ready]
    · simp [ready]
    · simp [ready]
    · intro _
      exact ⟨Parser.fresh_named _, Parser.fresh_keyed _, rfl, rfl⟩
    · simp [ready]
    · simp [ready]
  · refine ⟨_, by simp [runCommand, h.state, execute, hasync]; rfl, ?_, ?_⟩
    · exact ⟨h.buffer, h.parsed, h.used⟩
    intro m he
    cases he

theorem pass_sound (uv : Libuv) {s : Session} (h : s.conn.Sound)
    (hlt : s.conn.inputParsed < s.conn.inputUsed) :
    ∃ e, s.pass uv = some e ∧ e.session.conn.Fits ∧ ∀ m, e = .normally m → m.conn.Sound := by
  obtain ⟨e, he, hfits, hnormal⟩ := branch_sound h hlt
  cases e with
  | threw t what =>
    refine ⟨.threw t what, by simp [pass, he], hfits, ?_⟩
    intro m hm
    cases hm
  | normally t =>
    rw [pass_of_branch he]
    rcases hnormal t rfl with hsound | hexec
    · rw [runCommand_other hsound.idle]
      refine ⟨_, rfl, hsound.toFits, ?_⟩
      intro m hm
      cases hm
      exact hsound
    · exact runCommand_executable uv hexec

theorem Iterates.sound {s t : Session} (h : Iterates uv s t) (hs : s.conn.Sound) : t.conn.Sound := by
  induction h with
  | start => exact hs
  | next _ hlt hp ih =>
    obtain ⟨e, he, _, hnormal⟩ := pass_sound uv ih hlt
    cases hp.symm.trans he
    exact hnormal _ rfl

theorem overwrite_length {buffer data : Bytes} {offset : Nat}
    (h : offset + data.length ≤ buffer.length) :
    (overwrite buffer offset data).length = buffer.length := by
  simp only [overwrite, List.length_append, List.length_take, List.length_drop]
  omega

/-- `OnAllocate`: its assertion holds, and the rest is at the front of the buffer. -/
theorem onAllocate_sound {c : Connection} (h : c.Sound) :
    ∃ d, c.onAllocate = some d ∧ d.Sound ∧ d.inputParsed = 0 := by
  have hparsed := h.parsed
  have hused := h.used
  have hbuffer := h.buffer
  refine ⟨_, by rw [Connection.onAllocate, if_pos hparsed], ?_, rfl⟩
  refine ⟨⟨⟨?_, Nat.zero_le _, ?_⟩, h.receiving, h.trailing⟩, h.idle, h.header, h.cmd, h.whole⟩
  · rw [← hbuffer]
    apply overwrite_length
    rw [List.length_take, List.length_drop]
    omega
  · show c.inputUsed - c.inputParsed ≤ connectionInputBufferSize
    omega

theorem arrived_sound {s a : Session} (h : s.conn.Sound) {data : Bytes}
    (ha : s.arrived data = some a) : a.conn.Sound := by
  obtain ⟨c, hc, ha⟩ := Option.bind_eq_some_iff.mp ha
  obtain ⟨d, hd, hsound, hzero⟩ := onAllocate_sound h
  cases hc.symm.trans hd
  have hbuffer := hsound.buffer
  have hused := hsound.used
  split at ha
  next hfits =>
    cases Option.some.inj ha
    refine ⟨⟨⟨?_, ?_, ?_⟩, hsound.receiving, hsound.trailing⟩, hsound.idle, hsound.header, hsound.cmd,
      hsound.whole⟩
    · rw [← hbuffer]
      apply overwrite_length
      omega
    · rw [hzero]
      exact Nat.zero_le _
    · show c.inputUsed + data.length ≤ connectionInputBufferSize
      omega
  next => cases ha

theorem arrived_conn {s a : Session} {c : Connection} {data : Bytes}
    (hc : s.conn.onAllocate = some c) (ha : s.arrived data = some a) :
    a.conn = { c with
      input := overwrite c.input c.inputUsed data, inputUsed := c.inputUsed + data.length } := by
  simp only [arrived, hc, Option.bind_eq_bind, Option.bind_some] at ha
  split at ha
  next => cases Option.some.inj ha; rfl
  next => cases ha

theorem fail_sound {s t : Session} {what : Bytes} (h : s.conn.Fits)
    (ht : s.fail uv what = .ended (.normally t)) : t.conn.Sound := by
  refine Connection.Fits.sound_of_closed ?_ (fail_normally ht).1
  unfold fail at ht
  dsimp only at ht
  split at ht
  next => cases ht
  next => cases ht; exact ⟨h.buffer, h.parsed, h.used⟩

theorem step_sound {s t : Session} {data : Bytes} {passes : Nat} {r : Unit} (h : s.conn.Sound)
    (hs : step uv passes s data = some (t, r)) : t.conn.Sound := by
  obtain ⟨c, a, hc, ha, hend⟩ := step_cases hs
  have harrived := arrived_sound h ha
  rcases hend with ⟨hclosed, rfl⟩ | ⟨_, e, hloop, hlast⟩
  · obtain ⟨d, hd, hsound, _⟩ := onAllocate_sound h
    cases hc.symm.trans hd
    have hbuffer := harrived.buffer
    rw [arrived_conn hc ha] at hbuffer
    have hfits : ({ c with input := overwrite c.input c.inputUsed data } : Connection).Fits :=
      ⟨hbuffer, hsound.parsed, hsound.used⟩
    exact hfits.sound_of_closed ((onAllocate_state hc).trans hclosed)
  · obtain ⟨m, hm, ⟨rfl, _⟩ | ⟨v, what', hlt, hp, rfl⟩⟩ := readLoop_iterates hloop
    · rcases hlast with he | ⟨u, what, he, _⟩
      · cases he
        exact hm.sound harrived
      · cases he
    · rcases hlast with he | ⟨u, what, he, hfail⟩
      · cases he
      · cases he
        obtain ⟨e, he, hfits, _⟩ := pass_sound uv (hm.sound harrived) hlt
        cases hp.symm.trans he
        exact fail_sound hfits hfail

end Session

namespace UvConnection

variable {uv : Libuv} {passes : Nat}

theorem onConnectionOpen_conn (memory : Bytes) (negative : Bool) (accept readStart : Int32) :
    (onConnectionOpen memory negative accept readStart).session.conn =
      Connection.fresh memory negative := by
  unfold onConnectionOpen
  dsimp only
  split
  next => rfl
  next => split <;> rfl

theorem sound_step {c d : UvConnection} {e : Callback} {r : Unit} (h : c.session.conn.Sound)
    (hs : c.step uv passes e = some (d, r)) : d.session.conn.Sound := by
  cases moves_of_step hs with
  | read reading step => exact Session.step_sound h step
  | ended reading moved =>
    obtain ⟨conn, hconn, hsound, _⟩ := Session.onAllocate_sound h
    cases moved.symm.trans hconn
    exact hsound
  | executed sent rc => exact h
  | wrote pending status =>
    have hcount : ({ c.session.conn with
        runningTasks := decrement c.session.conn.runningTasks } : Connection).Sound :=
      ⟨⟨⟨h.buffer, h.parsed, h.used⟩, h.receiving, h.trailing⟩, h.idle, h.header, h.cmd, h.whole⟩
    obtain ⟨d, rfl, ⟨_, _, hd⟩ | ⟨_, hd⟩⟩ := onWriteDone_cases c
    · rw [hd]
      exact hcount
    · rw [hd]
      exact hcount
  | stopped first =>
    have hclosed : ({ c.session.conn with state := .sClosed } : Connection).Sound :=
      Connection.Fits.sound_of_closed ⟨h.buffer, h.parsed, h.used⟩ rfl
    obtain ⟨_, hd⟩ | ⟨d, rfl, _, ⟨_, hd⟩ | ⟨_, hd⟩⟩ := onStop_cases c
    · rw [hd]
      exact h
    · rw [hd]
      exact hclosed
    · rw [hd]
      exact hclosed
  | @closed callback last first => cases callback <;> exact h

end UvConnection

/-- In every state that a connection reaches, whatever bytes it was sent, both
offsets are inside the buffer; the assertion of the next `OnAllocate` holds; and
whatever data comes next, each time the loop of `OnRead` comes round the same
is true, the pass is defined, and a call of `Execute` has a command and an
argument of the size that its header declares. -/
theorem connection_bounded (uv : Libuv) (passes : Nat) {memory : Bytes}
    (hm : memory.length = connectionInputBufferSize) (negative : Bool) (accept readStart : Int32)
    {history : List (Callback × Unit)} {c : UvConnection}
    (reach : UvConnection.Reach uv passes (.onConnectionOpen memory negative accept readStart)
      history c) :
    c.session.conn.Bounded ∧ c.session.conn.onAllocate.isSome ∧
      ∀ data a t, c.session.arrived data = some a → Session.Iterates uv a t →
        t.conn.Bounded ∧
        (t.conn.inputParsed < t.conn.inputUsed → (t.pass uv).isSome) ∧
        ∀ m, t.conn.inputParsed < t.conn.inputUsed → t.branch = some (.normally m) →
          m.conn.state = .sExecute → m.conn.cmd.isSome ∧ m.conn.body.length = m.conn.declared := by
  have hopen : (UvConnection.onConnectionOpen memory negative accept
      readStart).session.conn.Sound := by
    rw [UvConnection.onConnectionOpen_conn]
    exact Connection.fresh_sound hm negative
  have hsound : c.session.conn.Sound :=
    reach.invariant hopen fun _ _ _ _ h hs => UvConnection.sound_step h hs
  obtain ⟨conn, hconn, _, _⟩ := Session.onAllocate_sound hsound
  refine ⟨hsound.toBounded, by rw [hconn]; rfl, ?_⟩
  intro data a t ha hiter
  have ht := hiter.sound (Session.arrived_sound hsound ha)
  refine ⟨ht.toBounded, ?_, ?_⟩
  · intro hlt
    obtain ⟨e, he, _⟩ := Session.pass_sound uv ht hlt
    rw [he]
    rfl
  · intro m hlt hbranch hstate
    obtain ⟨e, he, _, hnormal⟩ := Session.branch_sound ht hlt
    cases hbranch.symm.trans he
    rcases hnormal m rfl with hs | hexec
    · exact absurd hstate hs.idle
    · exact ⟨hexec.cmd, hexec.body⟩

/-- A body that has come in part: what is missing is known without looking. -/
theorem connection_bounded_part_of_set :
    ∃ history c, UvConnection.Reach .working 8
        (.onConnectionOpen (List.replicate connectionInputBufferSize 0) false 0 0) history c ∧
      history.map Prod.fst = [.readData (text "set k 0 0 5\r\nhel")] ∧
      (c.session.conn.state = .sRecvBody ∧ c.session.conn.body.length = 3 ∧
        c.session.conn.declared = 5) ∧ c.session.conn.bodySize.toNat = 2 := by
  obtain ⟨history, c, reach, hcalls, hend⟩ := PartialRun.reach_of_check
    (UvConnection.step .working 8)
    (.onConnectionOpen (List.replicate connectionInputBufferSize 0) false 0 0)
    [.readData (text "set k 0 0 5\r\nhel")]
    (fun c => c.session.conn.state = .sRecvBody ∧ c.session.conn.body.length = 3 ∧
      c.session.conn.parser.bytes.toNat = 5) (by decide)
  refine ⟨history, c, reach, hcalls, hend, ?_⟩
  have hbounded := (connection_bounded .working 8 List.length_replicate false 0 0 reach).1
  have hsum := hbounded.receiving hend.1
  rw [hend.2.1, show c.session.conn.declared = 5 from hend.2.2] at hsum
  omega

end Afina
