import Afina.ConnectionCore

namespace Afina

open Scan

/-- The two servers that read a connection in a loop on one thread, in
`RunConnection` and in `ConnectionWork`. -/
inductive Server
  | blocking
  | nonBlocking
deriving DecidableEq, Repr

/-- `buf_size`. -/
def bufSize : Nat := 256

inductive HandlerEvent
  | executed (cmd : Command) (args : Bytes)
  | sent (output : Bytes)
  | closed
  | unregistered
deriving DecidableEq, Repr

/-- What the outside answers, which may depend on all that happened before: the
text a command leaves as its result, or none when it throws, and the result of
`send`. -/
structure Backend where
  output : List HandlerEvent → Option Bytes
  send : List HandlerEvent → Int

/-- Where a handler is: at the `read` of its outer or of its inner loop, or at
its end. -/
inductive HandlerPhase
  | outer
  | inner (cmd : Option Command) (bodySize : UInt32)
  | returned
  | threw (what : Bytes)
deriving DecidableEq, Repr

def HandlerPhase.ended : HandlerPhase → Bool
  | .returned => true
  | .threw _ => true
  | _ => false

/-- The local variables of a handler between two reads. -/
structure Handler where
  parser : Parser
  command : Bytes
  buf : Bytes
  phase : HandlerPhase
  log : List HandlerEvent
deriving DecidableEq, Repr

/-- What happens next: `read` returns some bytes, none of them at the end of the
stream, or it fails; or the flag `running` is found to be false. -/
inductive Input
  | read (data : Bytes)
  | readFailed
  | stopped
deriving DecidableEq, Repr

/-- The text in a buffer that is used as a C string; without an end it is
undefined. -/
def cString (buf : Bytes) : Option Bytes :=
  if 0 ∈ buf then some (buf.takeWhile (· != 0)) else none

/-- `Parse` on so many characters of memory of which fewer may be readable. -/
def Parser.parseChars (p : Parser) (memory : Bytes) (size : Nat) :
    Option (Result Parser ParseError) :=
  let r := p.parse (memory.take size)
  if size ≤ memory.length then some r
  else
    match r with
    | .threw _ _ _ => some r
    | .returned q _ => if q.parseComplete then some r else none

/-- What comes behind the outer loop. -/
def Server.epilogue : Server → List HandlerEvent
  | .blocking => [.closed, .unregistered]
  | .nonBlocking => []

/-- What is done before the exception for a reply that could not be sent. -/
def Server.onUnsent : Server → List HandlerEvent
  | .blocking => [.closed]
  | .nonBlocking => []

namespace Handler

def fresh (negative : Bool) : Handler :=
  ⟨Parser.fresh negative, [], List.replicate bufSize 0, .outer, []⟩

def executed (h : Handler) : List (Command × Bytes) :=
  h.log.filterMap fun
    | .executed cmd args => some (cmd, args)
    | _ => none

def sent (h : Handler) : List Bytes :=
  h.log.filterMap fun
    | .sent output => some output
    | _ => none

def finish (server : Server) (h : Handler) : Handler :=
  { h with phase := .returned, log := h.log ++ server.epilogue }

/-- The `memset` at the end of a pass through the outer loop. -/
def nextPass (h : Handler) : Handler :=
  { h with buf := List.replicate bufSize 0, phase := .outer }

def sendOutput (backend : Backend) (h : Handler) (output : Bytes) (onFailure : List HandlerEvent)
    (next : Handler → Handler) : Handler :=
  let h : Handler := { h with log := h.log ++ [.sent output] }
  if backend.send h.log ≤ 0 then
    { h with log := h.log ++ onFailure, phase := .threw (text "Socket send() failed") }
  else next h

/-- The rest of a pass once the body is there; a null command is undefined. -/
def runCommand (server : Server) (backend : Backend) (h : Handler) (cmd : Option Command)
    (bodySize : UInt32) : Option Handler := do
  let com ← cmd
  let args := if 0 < bodySize then h.command.take bodySize.toNat else []
  let h : Handler := { h with command := [], log := h.log ++ [.executed com args] }
  let result := (backend.output h.log).getD (text "SERVER_ERROR") ++ text "\r\n"
  pure (h.sendOutput backend result server.onUnsent nextPass)

/-- The condition of the inner loop, in 32 bits on its left side. -/
def gather (server : Server) (backend : Backend) (h : Handler) (cmd : Option Command)
    (bodySize : UInt32) : Option Handler :=
  if 0 < bodySize ∧ (bodySize + 2).toNat > h.command.length then
    some { h with phase := .inner cmd bodySize }
  else h.runCommand server backend cmd bodySize

/-- The body of the outer loop behind its `read`, up to the inner loop. -/
def readHeader (server : Server) (backend : Backend) (h : Handler) (received : Nat) :
    Option Handler := do
  let appended ← cString h.buf
  let h : Handler := { h with command := h.command ++ appended }
  match ← h.parser.parseChars (h.command ++ [0]) received with
  | .threw p _ _ =>
    pure (sendOutput backend { h with parser := p } (text "PARSE ERROR\r\n") [.closed]
      (finish server))
  | .returned p parsed =>
    let h : Handler := { h with parser := p, command := h.command.drop parsed }
    if p.parseComplete then
      match ← p.build 0 with
      | (.error what, _) => pure { h with phase := .threw what }
      | (.ok cmd, bodySize) => gather server backend { h with parser := p.reset } cmd bodySize
    else pure h.nextPass

/-- The body of the inner loop behind its `read`, whose result is not looked at. -/
def readBody (server : Server) (backend : Backend) (h : Handler) (cmd : Option Command)
    (bodySize : UInt32) : Option Handler := do
  let appended ← cString h.buf
  gather server backend { h with command := h.command ++ appended } cmd bodySize

/-- What a handler makes of a `read`, up to the next one. Data is put over the
start of the buffer, whose other bytes stay. A handler that has ended reads
nothing. -/
def onRead (server : Server) (backend : Backend) (h : Handler) (data : Bytes) : Option Handler :=
  let filled := { h with buf := overwrite h.buf 0 data }
  match h.phase with
  | .outer =>
    if server = .blocking ∧ data = [] ∧ h.command = [] then some (h.finish server)
    else filled.readHeader server backend data.length
  | .inner cmd bodySize => filled.readBody server backend cmd bodySize
  | .returned => some h
  | .threw _ => some h

def step (server : Server) (backend : Backend) (h : Handler) : Input → Option (Handler × Unit)
  | .read data =>
    if data.length ≤ bufSize then (h.onRead server backend data).map (·, ()) else none
  | .readFailed =>
    match h.phase with
    | .outer => some (h.finish server, ())
    | .inner cmd bodySize => (h.readBody server backend cmd bodySize).map (·, ())
    | .returned => some (h, ())
    | .threw _ => some (h, ())
  | .stopped =>
    match h.phase with
    | .outer => some (h.finish server, ())
    | _ => none

/-- States of a handler on a new connection and the inputs so far. -/
abbrev Reach (server : Server) (backend : Backend) (negative : Bool) :
    List (Input × Unit) → Handler → Prop :=
  PartialRun.Reach (Handler.step server backend) (Handler.fresh negative)

end Handler

/-- `Blocking::ServerImpl::RunConnection`. -/
def runConnection : Backend → Handler → Input → Option (Handler × Unit) := Handler.step .blocking

/-- `NonBlocking::Worker::ConnectionWork`. -/
def connectionWork : Backend → Handler → Input → Option (Handler × Unit) := Handler.step .nonBlocking

end Afina
