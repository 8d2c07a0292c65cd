import Afina.ConnectionReads

namespace Afina

/-- The callbacks that are passed to `uv_close` with a connection. -/
inductive CloseCallback
  | onConnectionClosed
  | onHandleClosed
deriving DecidableEq, Repr

/-- A connection with its place in `alive` and with what libuv owes it: reads
until they are stopped, one `OnExecutionDone` for each async sent, one
`OnWriteDone` for each write accepted, and one close callback. `closes` lists the
calls of `uv_close` on its handle, and `closedWith` is the count of running tasks
that `OnConnectionClosed` found. -/
structure UvConnection where
  session : Session
  alive : Bool
  reading : Bool
  asyncs : Nat
  writes : Nat
  closes : List CloseCallback
  closeRan : Bool
  stopRan : Bool
  closedWith : Option Nat
  deleted : Bool

namespace Session

def clientErrors (s : Session) : List Bytes :=
  s.log.filterMap fun
    | .clientError output => some output
    | _ => none

end Session

/-- `--` on a `size_t`. -/
def decrement (n : Nat) : Nat := if n = 0 then 2 ^ 64 - 1 else n - 1

namespace UvConnection

/-- `uv_close` also stops the reading. It asserts that the handle is not closing
already, and would else put it on its list of closing handles twice: the state behind
a second call, with two entries of `closes`, is only there to tell that it was made. -/
def uvClose (c : UvConnection) (callback : CloseCallback) : UvConnection :=
  { c with
    session := c.session.record .uvClose
    closes := c.closes ++ [callback]
    reading := false }

/-- `OnConnectionOpen`, with the results of `uv_accept` and `uv_read_start`. -/
def onConnectionOpen (memory : Bytes) (negative : Bool) (accept readStart : Int32) : UvConnection :=
  let c : UvConnection :=
    ⟨Session.fresh memory negative, true, false, 0, 0, [], false, false, none, false⟩
  if accept ≠ 0 then c.uvClose .onHandleClosed
  else if readStart ≠ 0 then c.uvClose .onHandleClosed
  else { c with reading := true }

/-- A read of data. Each command it executes sends one async, and an error reply
is handed to `uv_write` at once. -/
def onReadData (uv : Libuv) (passes : Nat) (c : UvConnection) (data : Bytes) :
    Option UvConnection := do
  let (s, _) ← c.session.step uv passes data
  pure { c with
    session := s
    asyncs := c.asyncs + (s.executed.length - c.session.executed.length)
    writes := c.writes + (s.clientErrors.length - c.session.clientErrors.length) }

/-- `OnAllocate` and `OnRead` at the end of the stream or after an error. -/
def onReadFailed (uv : Libuv) (c : UvConnection) (nread : Int) : Option UvConnection := do
  let conn ← c.session.conn.onAllocate
  match Session.onRead uv 0 { c.session with conn := conn } nread with
  | .ended (.normally s) =>
    pure { c with
      session := s, closes := c.closes ++ [.onConnectionClosed], reading := false }
  | _ => none

/-- `OnExecutionDone`, with the result of `uv_write`; its exception leaves the
event loop. -/
def onExecutionDone (c : UvConnection) (rc : Int32) : Option UvConnection :=
  if rc ≠ 0 then none else some { c with asyncs := c.asyncs - 1, writes := c.writes + 1 }

def onWriteDone (c : UvConnection) : UvConnection :=
  let c := { c with
    writes := c.writes - 1
    session := { c.session with conn := { c.session.conn with
      runningTasks := decrement c.session.conn.runningTasks } } }
  if c.session.conn.state = .sClosed ∧ c.session.conn.runningTasks = 0 then
    c.uvClose .onConnectionClosed
  else c

/-- What `OnStop` does to one connection of `alive`. -/
def onStop (c : UvConnection) : UvConnection :=
  let c := { c with stopRan := true }
  if c.alive then
    let c := { c with
      session := { c.session with conn := { c.session.conn with state := .sClosed } }
      reading := false }
    if c.session.conn.runningTasks = 0 then c.uvClose .onConnectionClosed else c
  else c

/-- `OnConnectionClosed`; its assertion is on the count that `closedWith` keeps, and
where it fails the callback goes on as in a build without assertions. -/
def onConnectionClosed (c : UvConnection) : UvConnection :=
  { c with closedWith := some c.session.conn.runningTasks, deleted := c.alive, alive := false }

def onClosed (c : UvConnection) : CloseCallback → UvConnection
  | .onConnectionClosed => c.onConnectionClosed
  | .onHandleClosed => c

end UvConnection

inductive Callback
  | readData (data : Bytes)
  | readFailed (nread : Int)
  | executionDone (rc : Int32)
  | writeDone (status : Int32)
  | stop
  | closed
deriving DecidableEq, Repr

namespace UvConnection

/-- `uv_close` was called on a handle that was closing. -/
def ClosedTwice (c : UvConnection) : Prop := 2 ≤ c.closes.length

instance (c : UvConnection) : Decidable c.ClosedTwice := inferInstanceAs (Decidable (2 ≤ _))

/-- One callback, if libuv may make it. A callback that uses a deleted connection
is undefined. -/
def onCallback (uv : Libuv) (passes : Nat) (c : UvConnection) :
    Callback → Option (UvConnection × Unit)
  | .readData data =>
    if c.reading ∧ ¬ c.deleted then (c.onReadData uv passes data).map (·, ()) else none
  | .readFailed nread =>
    if c.reading ∧ ¬ c.deleted ∧ nread < 0 then (c.onReadFailed uv nread).map (·, ()) else none
  | .executionDone rc =>
    if 0 < c.asyncs ∧ ¬ c.deleted then (c.onExecutionDone rc).map (·, ()) else none
  | .writeDone _ => if 0 < c.writes ∧ ¬ c.deleted then some (c.onWriteDone, ()) else none
  | .stop => if c.stopRan then none else some (c.onStop, ())
  | .closed =>
    match c.closes.getLast? with
    | none => none
    | some callback =>
      if c.closeRan then none else some ({ c with closeRan := true }.onClosed callback, ())

/-- One callback of a connection. None comes behind a second `uv_close`, whose
assertion ends the process. -/
def step (uv : Libuv) (passes : Nat) (c : UvConnection) (e : Callback) :
    Option (UvConnection × Unit) :=
  if c.ClosedTwice then none else c.onCallback uv passes e

/-- What a connection goes through from its opening on. -/
abbrev Reach (uv : Libuv) (passes : Nat) (opened : UvConnection) :
    List (Callback × Unit) → UvConnection → Prop :=
  PartialRun.Reach (UvConnection.step uv passes) opened

end UvConnection

end Afina
