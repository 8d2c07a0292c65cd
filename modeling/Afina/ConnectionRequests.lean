import Afina.ConnectionCore
import Afina.ParserHeaders

namespace Afina

open Scan Decimal

/-- A command as a client sends it. -/
inductive Request
  | get (keys : List Bytes)
  | stats
  | put (name : Bytes) (kind : InsertKind) (key : Bytes) (flags : UInt32) (exptime : Int32)
      (body : Bytes)
deriving DecidableEq, Repr

namespace Request

def WellFormed : Request → Prop
  | .get keys => keys ≠ [] ∧ ∀ k ∈ keys, space ∉ k ∧ cr ∉ k
  | .stats => True
  | .put name kind key _ _ body =>
    (name, kind) ∈ putNames ∧ space ∉ key ∧ 1 ≤ body.length ∧ body.length < 2 ^ 32

instance : DecidablePred WellFormed
  | .get keys => inferInstanceAs (Decidable (keys ≠ [] ∧ ∀ k ∈ keys, space ∉ k ∧ cr ∉ k))
  | .stats => inferInstanceAs (Decidable True)
  | .put name kind key _ _ body => inferInstanceAs (Decidable
      ((name, kind) ∈ putNames ∧ space ∉ key ∧ 1 ≤ body.length ∧ body.length < 2 ^ 32))

/-- As above, but the body may be empty. -/
def Framed : Request → Prop
  | .get keys => keys ≠ [] ∧ ∀ k ∈ keys, space ∉ k ∧ cr ∉ k
  | .stats => True
  | .put name kind key _ _ body => (name, kind) ∈ putNames ∧ space ∉ key ∧ body.length < 2 ^ 32

instance : DecidablePred Framed
  | .get keys => inferInstanceAs (Decidable (keys ≠ [] ∧ ∀ k ∈ keys, space ∉ k ∧ cr ∉ k))
  | .stats => inferInstanceAs (Decidable True)
  | .put name kind key _ _ body => inferInstanceAs (Decidable
      ((name, kind) ∈ putNames ∧ space ∉ key ∧ body.length < 2 ^ 32))

theorem WellFormed.framed {q : Request} (h : q.WellFormed) : q.Framed := by
  cases q with
  | get keys => exact h
  | stats => exact h
  | put name kind key flags exptime body => exact ⟨h.1, h.2.1, h.2.2.2⟩

def body : Request → Bytes
  | .put _ _ _ _ _ body => body
  | _ => []

def header : Request → Bytes
  | .get keys => getHeader keys
  | .stats => statsHeader
  | .put name _ key flags exptime body =>
    putHeader name key flags exptime (UInt32.ofNat body.length)

def payload : Request → Bytes
  | .put _ _ _ _ _ body => body ++ [cr, lf]
  | _ => []

def encode (q : Request) : Bytes := q.header ++ q.payload

/-- The command with the fields that the parser finds in the header. -/
def command : Request → Command
  | .get keys => .get keys
  | .stats => .stats
  | .put _ kind key flags exptime _ => .insert kind ⟨key, flags, parsedExpire exptime⟩

def call (q : Request) : Command × Bytes := (q.command, q.body)

theorem Framed.body_lt {q : Request} (h : q.Framed) : q.body.length < 2 ^ 32 := by
  cases q with
  | get keys => exact Nat.two_pow_pos 32
  | stats => exact Nat.two_pow_pos 32
  | put name kind key flags exptime body => exact h.2.2

theorem WellFormed.payload_cases {q : Request} (h : q.WellFormed) :
    (q.body = [] ∧ q.payload = []) ∨ (q.body ≠ [] ∧ q.payload = q.body ++ [cr, lf]) := by
  cases q with
  | get keys => exact Or.inl ⟨rfl, rfl⟩
  | stats => exact Or.inl ⟨rfl, rfl⟩
  | put name kind key flags exptime body =>
    exact Or.inr ⟨List.length_pos_iff.mp h.2.2.1, rfl⟩

theorem Framed.reads_header {q : Request} (h : q.Framed) (negative : Bool) :
    ∃ p, (Parser.fresh negative).Reads q.header p ∧ p.parseComplete = true ∧
      ∀ b, p.build b = some (.ok (some q.command), UInt32.ofNat q.body.length) := by
  cases q with
  | get keys =>
    exact ⟨_, Parser.reads_getHeader negative h.1 h.2, rfl, Parser.build_afterGet negative keys⟩
  | stats => exact ⟨_, Parser.reads_statsHeader negative, rfl, Parser.build_afterStats negative⟩
  | put name kind key flags exptime body =>
    exact ⟨_, Parser.reads_putHeader negative h.1 h.2.1 flags exptime _, rfl,
      Parser.build_afterPut h.1 key flags exptime _⟩

/-- The rest of a header that was cut is read as the whole would have been. -/
theorem Framed.parse_rest {q : Request} (h : q.Framed) {pre post : Bytes}
    (split : q.header = pre ++ post) {negative : Bool} {p : Parser}
    (scanned : (Parser.fresh negative).parse pre = .returned p pre.length)
    (incomplete : p.parseComplete = false) (w : Bytes) :
    ∃ p', p.parse (post ++ w) = .returned p' post.length ∧ p'.parseComplete = true ∧
      ∀ b, p'.build b = some (.ok (some q.command), UInt32.ofNat q.body.length) := by
  obtain ⟨p', hread, hcomplete, hbuild⟩ := h.reads_header negative
  refine ⟨p', ?_, hcomplete, hbuild⟩
  have hwhole := hread.scan_complete hcomplete w
  rw [split, List.append_assoc, scan_resume scanned incomplete, List.length_append] at hwhole
  exact Result.returned_of_later hwhole

theorem Framed.parse_part {q : Request} (h : q.Framed) {pre w post : Bytes}
    (split : q.header = pre ++ (w ++ post)) (more : post ≠ []) {negative : Bool} {p : Parser}
    (scanned : (Parser.fresh negative).parse pre = .returned p pre.length)
    (incomplete : p.parseComplete = false) :
    ∃ p', p.parse w = .returned p' w.length ∧ p'.parseComplete = false ∧
      (Parser.fresh negative).parse (pre ++ w) = .returned p' (pre ++ w).length := by
  obtain ⟨pf, hread, hcomplete, _⟩ := h.reads_header negative
  have hwhole := hread.scan_complete hcomplete []
  rw [List.append_nil, split, ← List.append_assoc] at hwhole
  obtain ⟨p', hp', hinc⟩ := scan_prefix hwhole more
  refine ⟨p', ?_, hinc, hp'⟩
  rw [scan_resume scanned incomplete, List.length_append] at hp'
  exact Result.returned_of_later hp'

theorem header_ne_nil (q : Request) : q.header ≠ [] := by
  cases q <;> simp [header, getHeader, statsHeader, putHeader]

theorem payload_eq {q : Request} (hb : q.body ≠ []) : q.payload = q.body ++ [cr, lf] := by
  cases q with
  | get keys => exact absurd rfl hb
  | stats => exact absurd rfl hb
  | put name kind key flags exptime body => rfl

theorem payload_length {q : Request} (hb : q.body ≠ []) :
    q.payload.length = q.body.length + 2 := by
  rw [payload_eq hb, List.length_append]
  rfl

theorem take_payload {q : Request} (hb : q.body ≠ []) (w : Bytes) :
    (q.payload ++ w).take q.body.length = q.body := by
  rw [payload_eq hb, List.append_assoc, List.take_left]

theorem no_zero_payload {q : Request} (hb : q.body ≠ []) (hz : 0 ∉ q.body) : 0 ∉ q.payload := by
  rw [payload_eq hb, List.mem_append]
  exact fun hmem => hmem.elim hz (by decide)

/-- Bytes that reach behind the header. -/
theorem behind_header {q : Request} {front later : Bytes} (hstream : q.encode = front ++ later)
    (hle : q.header.length ≤ front.length) :
    ∃ got, front = q.header ++ got ∧ q.payload = got ++ later := by
  obtain ⟨got, hsplit⟩ :=
    List.prefix_of_prefix_length_le ⟨q.payload, rfl⟩ ⟨later, hstream.symm⟩ hle
  refine ⟨got, hsplit.symm, ?_⟩
  rw [← hsplit, List.append_assoc] at hstream
  exact List.append_cancel_left hstream

/-- Bytes that end inside the header. -/
theorem inside_header {q : Request} {front later : Bytes} (hstream : q.encode = front ++ later)
    (hlt : front.length < q.header.length) : ∃ post, q.header = front ++ post ∧ post ≠ [] := by
  obtain ⟨post, hsplit⟩ := List.prefix_of_prefix_length_le ⟨later, hstream.symm⟩
    ⟨q.payload, rfl⟩ (Nat.le_of_lt hlt)
  refine ⟨post, hsplit.symm, ?_⟩
  rintro rfl
  rw [← hsplit, List.append_nil] at hlt
  exact Nat.lt_irrefl _ hlt

theorem header_last (q : Request) : ∃ front, q.header = front ++ [lf] := by
  cases q with
  | get keys => exact ⟨_, rfl⟩
  | stats => exact ⟨_, rfl⟩
  | put name kind key flags exptime body => exact ⟨_, rfl⟩

theorem encode_ne_nil (q : Request) : q.encode ≠ [] := by
  simp [encode, header_ne_nil]

end Request

structure Connection.Ready (c : Connection) : Prop where
  state : c.state = .sRecvHeader
  parser : ∃ negative, c.parser = Parser.fresh negative
  cmd : c.cmd = none
  body : c.body = []

/-- Inside a command, with so many bytes of it still to come. -/
inductive Connection.Inside (q : Request) : Bytes → Connection → Prop
  | header {c : Connection} {pre post : Bytes} {negative : Bool}
      (state : c.state = .sRecvHeader) (split : q.header = pre ++ post) (more : post ≠ [])
      (scanned : (Parser.fresh negative).parse pre = .returned c.parser pre.length)
      (incomplete : c.parser.parseComplete = false) (empty : c.body = []) :
      Inside q (post ++ q.payload) c
  | body {c : Connection} {left : Bytes}
      (state : c.state = .sRecvBody) (split : q.body = c.body ++ left) (more : left ≠ [])
      (size : c.bodySize = UInt32.ofNat left.length) (cmd : c.cmd = some q.command) :
      Inside q (left ++ [cr, lf]) c
  | trailerCR {c : Connection} (state : c.state = .sRecvTrailerCR) (body : c.body = q.body)
      (cmd : c.cmd = some q.command) : Inside q [cr, lf] c
  | trailerLF {c : Connection} (state : c.state = .sRecvTrailerLF) (body : c.body = q.body)
      (cmd : c.cmd = some q.command) : Inside q [lf] c

theorem Connection.Ready.inside {c : Connection} (h : c.Ready) (q : Request) :
    c.Inside q q.encode := by
  obtain ⟨negative, hp⟩ := h.parser
  have hscanned : (Parser.fresh negative).parse [] = .returned c.parser ([] : Bytes).length := by
    rw [hp]
    rfl
  have hincomplete : c.parser.parseComplete = false := by
    rw [hp]
    rfl
  exact .header h.state rfl q.header_ne_nil hscanned hincomplete h.body

theorem Connection.Inside.rest_ne_nil {q : Request} {rest : Bytes} {c : Connection}
    (h : c.Inside q rest) : rest ≠ [] := by
  cases h with
  | header state split more => simp [more]
  | body => simp
  | trailerCR => simp
  | trailerLF => simp

theorem Connection.Inside.not_closed {q : Request} {rest : Bytes} {c : Connection}
    (h : c.Inside q rest) : c.state ≠ .sClosed := by
  cases h with
  | header state => simp [state]
  | body state => simp [state]
  | trailerCR state => simp [state]
  | trailerLF state => simp [state]

/-- The bytes of the buffer that are not consumed yet. -/
def Connection.unread (c : Connection) : Bytes := (c.input.take c.inputUsed).drop c.inputParsed

namespace Session

@[simp] theorem record_conn (s : Session) (e : Event) : (s.record e).conn = s.conn := rfl

@[simp] theorem consumed_record (s : Session) (start count : Nat) :
    (s.record (.consumed start count)).consumed = s.consumed ++ List.range' start count := by
  simp [consumed, record]

@[simp] theorem executed_record (s : Session) (start count : Nat) :
    (s.record (.consumed start count)).executed = s.executed := by
  simp [executed, record]

/-- The connection has gone on by so many bytes of its buffer and made these
calls. -/
structure Moved (s t : Session) (n : Nat) (calls : List (Command × Bytes)) : Prop where
  input : t.conn.input = s.conn.input
  used : t.conn.inputUsed = s.conn.inputUsed
  origin : t.conn.origin = s.conn.origin
  parsed : t.conn.inputParsed = s.conn.inputParsed + n
  consumed : t.consumed = s.consumed ++ List.range' (s.conn.origin + s.conn.inputParsed) n
  executed : t.executed = s.executed ++ calls

theorem Moved.refl (s : Session) : Moved s s 0 [] :=
  ⟨rfl, rfl, rfl, rfl, by simp, by simp⟩

theorem Moved.trans {s t u : Session} {m n : Nat} {a b : List (Command × Bytes)}
    (h : Moved s t m a) (h' : Moved t u n b) : Moved s u (m + n) (a ++ b) := by
  refine ⟨h'.input.trans h.input, h'.used.trans h.used, h'.origin.trans h.origin, ?_, ?_, ?_⟩
  · rw [h'.parsed, h.parsed, Nat.add_assoc]
  · rw [h'.consumed, h.consumed, h.origin, h.parsed, List.append_assoc, ← Nat.add_assoc,
      List.range'_append_1]
  · rw [h'.executed, h.executed, List.append_assoc]

theorem Moved.unread {s t : Session} {calls : List (Command × Bytes)} {eaten w : Bytes}
    (h : Moved s t eaten.length calls) (hs : s.conn.unread = eaten ++ w) : t.conn.unread = w := by
  rw [Connection.unread, h.input, h.used, h.parsed, ← List.drop_drop, ← Connection.unread, hs,
    List.drop_left]

end Session

end Afina
