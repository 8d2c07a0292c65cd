import Afina.ParserCore

namespace Afina

inductive ConnectionState
  | sRecvHeader
  | sRecvBody
  | sRecvTrailerCR
  | sRecvTrailerLF
  | sExecute
  | sClosed
deriving DecidableEq, Repr

def connectionInputBufferSize : Nat := 64 * 1024

/-- `Worker::Connection`. The origin is not in the source: it is the place in
the client's byte stream of the first byte of the buffer. -/
structure Connection where
  state : ConnectionState
  input : Bytes
  inputUsed : Nat
  inputParsed : Nat
  parser : Parser
  cmd : Option Command
  bodySize : UInt32
  body : Bytes
  runningTasks : Nat
  origin : Nat
deriving DecidableEq, Repr

/-- What the handlers do to the outside: the places of the stream they take
bytes from, the commands they execute, the error replies they write, and the
closing of the handle. -/
inductive Event
  | consumed (start count : Nat)
  | executed (cmd : Command) (argument : Bytes)
  | clientError (output : Bytes)
  | uvClose
deriving DecidableEq, Repr

/-- A connection and all that its handlers have done. -/
structure Session where
  conn : Connection
  log : List Event
deriving DecidableEq, Repr

/-- The results of the calls to the event library. They may depend on all that the
handlers of the same connection have done before, and the same functions give them for
every connection of a loop. -/
structure Libuv where
  asyncInit : List Event → Int32
  write : List Event → Int32

/-- Fresh memory for the buffer and the parser's sign flag are not initialised. -/
def Connection.fresh (memory : Bytes) (negative : Bool) : Connection :=
  ⟨.sRecvHeader, memory, 0, 0, Parser.fresh negative, none, 0, [], 0, 0⟩

def overwrite (buffer : Bytes) (offset : Nat) (data : Bytes) : Bytes :=
  buffer.take offset ++ data ++ buffer.drop (offset + data.length)

/-- `OnAllocate`; its assertion is the only way for it to fail. The space it
offers is what is left of the buffer from `inputUsed` on. -/
def Connection.onAllocate (c : Connection) : Option Connection :=
  if c.inputParsed ≤ c.inputUsed then
    let unparsed := c.inputUsed - c.inputParsed
    some { c with
      input := overwrite c.input 0 ((c.input.drop c.inputParsed).take unparsed)
      inputParsed := 0
      inputUsed := unparsed
      origin := c.origin + c.inputParsed }
  else none

namespace Session

/-- The places of the stream that were consumed, in the order of consumption. -/
def consumed (s : Session) : List Nat :=
  s.log.flatMap fun
    | .consumed start count => List.range' start count
    | _ => []

def executed (s : Session) : List (Command × Bytes) :=
  s.log.filterMap fun
    | .executed cmd argument => some (cmd, argument)
    | _ => none

def record (s : Session) (e : Event) : Session := { s with log := s.log ++ [e] }

inductive Ended
  | normally (s : Session)
  | threw (s : Session) (what : Bytes)
deriving DecidableEq, Repr

/-- The branch of the loop of `OnRead` that reads a header. `Parse` is always
given the buffer from its start. -/
def recvHeader (s : Session) : Option Ended :=
  match s.conn.parser.parse (s.conn.input.take s.conn.inputUsed) with
  | .threw p e pos =>
    some (.threw { s with conn := { s.conn with parser := p, inputParsed := 0 } } (e.what pos))
  | .returned p n =>
    let s := s.record (.consumed s.conn.origin n)
    let c := { s.conn with parser := p, inputParsed := n }
    if p.parseComplete then
      match p.build c.bodySize with
      | none => none
      | some (.error what, bodySize) =>
        some (.threw { s with conn := { c with bodySize := bodySize } } what)
      | some (.ok cmd, bodySize) =>
        let c := { c with cmd := cmd, bodySize := bodySize }
        if 0 < bodySize then
          some (.normally { s with conn := { c with body := [], state := .sRecvBody } })
        else some (.normally { s with conn := { c with state := .sExecute } })
    else some (.normally { s with conn := c })

def recvBody (s : Session) : Option Ended :=
  let c := s.conn
  let forCopy := min (UInt32.ofNat (c.inputUsed - c.inputParsed)) c.bodySize
  let bodySize := c.bodySize - forCopy
  let s := s.record (.consumed (c.origin + c.inputParsed) forCopy.toNat)
  some (.normally { s with conn := { c with
    body := c.body ++ (c.input.drop c.inputParsed).take forCopy.toNat
    bodySize := bodySize
    inputParsed := c.inputParsed + forCopy.toNat
    state := if bodySize = 0 then .sRecvTrailerCR else c.state } })

/-- The two trailer branches: one expected character; reading past the buffer is
undefined. -/
def recvTrailer (s : Session) (expected : UInt8) (what : Bytes) (next : ConnectionState) :
    Option Ended := do
  let c ← s.conn.input[s.conn.inputParsed]?
  if c ≠ expected then pure (.threw s what)
  else
    let s := s.record (.consumed (s.conn.origin + s.conn.inputParsed) 1)
    pure (.normally { s with conn := { s.conn with
      inputParsed := s.conn.inputParsed + 1, state := next } })

def recvTrailerCR (s : Session) : Option Ended :=
  s.recvTrailer cr (text "Invalid chat, \\r expected") .sRecvTrailerLF

def recvTrailerLF (s : Session) : Option Ended :=
  s.recvTrailer lf (text "Invalid chat, \\n expected") .sExecute

/-- `Execute` up to the call of the command, which goes to the log; a null
command is undefined. A string that was moved from is taken to be empty. -/
def execute (uv : Libuv) (s : Session) : Option Ended :=
  let c := { s.conn with cmd := none, body := [], runningTasks := s.conn.runningTasks + 1 }
  if uv.asyncInit s.log ≠ 0 then
    some (.threw { s with conn := c } (text "Failed to call uv_async_init for the task"))
  else do
    let cmd ← s.conn.cmd
    let s := s.record (.executed cmd s.conn.body)
    pure (.normally { s with conn := c })

def ready (s : Session) : Session :=
  { s with conn := { s.conn with
    cmd := none, body := [], parser := s.conn.parser.reset, state := .sRecvHeader } }

def branch (s : Session) : Option Ended :=
  match s.conn.state with
  | .sRecvHeader => s.recvHeader
  | .sRecvBody => s.recvBody
  | .sRecvTrailerCR => s.recvTrailerCR
  | .sRecvTrailerLF => s.recvTrailerLF
  | .sExecute => some (.normally s)
  | .sClosed => some (.normally s)

def runCommand (uv : Libuv) (s : Session) : Option Ended :=
  if s.conn.state = .sExecute then do
    match ← s.execute uv with
    | .threw s what => pure (.threw s what)
    | .normally s => pure (.normally s.ready)
  else pure (.normally s)

/-- One pass through the loop of `OnRead`. -/
def pass (uv : Libuv) (s : Session) : Option Ended := do
  match ← s.branch with
  | .threw s what => pure (.threw s what)
  | .normally s => s.runCommand uv

inductive Progress
  | ended (e : Ended)
  | undefined
  | running
deriving DecidableEq, Repr

/-- The loop of `OnRead`, for at most so many passes. -/
def readLoop (uv : Libuv) : Nat → Session → Progress
  | 0, s => if s.conn.inputParsed < s.conn.inputUsed then .running else .ended (.normally s)
  | passes + 1, s =>
    if s.conn.inputParsed < s.conn.inputUsed then
      match s.pass uv with
      | none => .undefined
      | some (.threw s what) => .ended (.threw s what)
      | some (.normally s) => readLoop uv passes s
    else .ended (.normally s)

/-- The handler of `OnRead` for exceptions. The reply is handed to
`OnExecutionDone`, whose own exception escapes. -/
def fail (uv : Libuv) (s : Session) (what : Bytes) : Progress :=
  let s := s.record (.clientError (text "CLIENT_ERROR " ++ what ++ text "\r\n"))
  let s := { s with conn := { s.conn with
    runningTasks := s.conn.runningTasks + 1, state := .sClosed } }
  if uv.write s.log ≠ 0 then .ended (.threw s (text "Failed to write request"))
  else .ended (.normally s)

def onRead (uv : Libuv) (passes : Nat) (s : Session) (nread : Int) : Progress :=
  if nread < 0 then .ended (.normally (s.record .uvClose))
  else if s.conn.state = .sClosed then .ended (.normally s)
  else
    match readLoop uv passes
        { s with conn := { s.conn with inputUsed := s.conn.inputUsed + nread.toNat } } with
    | .ended (.threw s what) => s.fail uv what
    | progress => progress

/-- One read of data: `OnAllocate`, the bytes put where it said, at most as many
as it offered, and `OnRead`. There is a result when `OnRead` returns within so
many passes. -/
def step (uv : Libuv) (passes : Nat) (s : Session) (data : Bytes) : Option (Session × Unit) := do
  let c ← s.conn.onAllocate
  if data.length ≤ connectionInputBufferSize - c.inputUsed then
    let c := { c with input := overwrite c.input c.inputUsed data }
    match onRead uv passes { s with conn := c } data.length with
    | .ended (.normally s) => pure (s, ())
    | _ => none
  else none

end Session

end Afina
