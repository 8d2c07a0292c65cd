import Afina.Lib.Scan
import Afina.Commands

namespace Afina

open Scan Decimal

inductive ParserState
  | sCR
  | sLF
  | sName
  | spKey
  | spFlags
  | spExprTimeStart
  | spExprTime
  | spBytes
  | sgKey
deriving DecidableEq, Repr

structure Parser where
  state : ParserState
  name : Bytes
  keys : List Bytes
  flags : UInt32
  exprtime : Int32
  bytes : UInt32
  negative : Bool
  curKey : Bytes
  parseComplete : Bool
deriving DecidableEq, Repr

inductive ParseError
  | unknownCommandName
  | noKey
  | flagsOverflow
  | expireTimeOverflow
  | bytesOverflow
  | invalidChar (c : UInt8)
  | unknownState
deriving DecidableEq, Repr

/-- The text of an error thrown at this position of the call's input; `char` is
signed. -/
def ParseError.what (pos : Nat) : ParseError → Bytes
  | .unknownCommandName => text "Unknown command name"
  | .noKey => text "Client provides no key to retrive"
  | .flagsOverflow => text "Flags field overflow"
  | .expireTimeOverflow => text "Expire time field overflow"
  | .bytesOverflow => text "Bytes field overflow"
  | .invalidChar c => text "Invalid char " ++ renderInt c.toInt8.toInt ++ text " at position " ++
      render pos ++ text ", \\n expected"
  | .unknownState => text "Unknown state"

def space : UInt8 := 32

def cr : UInt8 := 13

def lf : UInt8 := 10

def minus : UInt8 := 45

namespace Parser

/-- A new parser; the constructor leaves the sign flag as it finds it. -/
def fresh (negative : Bool) : Parser := ⟨.sName, [], [], 0, 0, 0, negative, [], false⟩

/-- `Reset`, which does not touch the sign flag either. -/
def reset (p : Parser) : Parser := fresh p.negative

def stepName (p : Parser) (c : UInt8) : Except ParseError Parser :=
  if c = space ∨ c = cr then
    if p.name = text "set" ∨ p.name = text "add" ∨ p.name = text "append" ∨
        p.name = text "prepend" then
      .ok { p with state := .spKey }
    else if p.name = text "get" ∨ p.name = text "gets" then .ok { p with state := .sgKey }
    else if p.name = text "stats" then .ok { p with state := .sLF }
    else .error .unknownCommandName
  else .ok { p with name := p.name ++ [c] }

def stepPutKey (p : Parser) (c : UInt8) : Except ParseError Parser :=
  if c = space then .ok { p with state := .spFlags, keys := p.keys ++ [p.curKey] }
  else .ok { p with curKey := p.curKey ++ [c] }

/-- The test for no keys comes after the push and cannot fire. -/
def stepGetKey (p : Parser) (c : UInt8) : Except ParseError Parser :=
  if c = cr then
    let keys := p.keys ++ [p.curKey]
    if keys.length = 0 then .error .noKey
    else .ok { p with keys := keys, curKey := [], state := .sLF }
  else if c = space then .ok { p with keys := p.keys ++ [p.curKey], curKey := [] }
  else .ok { p with curKey := p.curKey ++ [c] }

/-- Any other character of the field is skipped, here and in the next three. -/
def stepFlags (p : Parser) (c : UInt8) : Except ParseError Parser :=
  if c = space then .ok { p with negative := false, state := .spExprTimeStart }
  else if isDigit c then
    let f := p.flags * 10 + UInt32.ofNat (digit c)
    if f < p.flags then .error .flagsOverflow else .ok { p with flags := f }
  else .ok p

def stepExprTimeStart (p : Parser) (c : UInt8) : Except ParseError Parser :=
  if c = minus then .ok { p with negative := true, state := .spExprTime }
  else if isDigit c then .ok { p with exprtime := Int32.ofNat (digit c), state := .spExprTime }
  else .ok p

/-- The digits are added up, without a factor of ten. A sum of two `int`s that
overflows is taken to wrap. -/
def stepExprTime (p : Parser) (c : UInt8) : Except ParseError Parser :=
  if c = space then .ok { p with state := .spBytes }
  else if isDigit c then
    if p.negative then
      let et := p.exprtime - Int32.ofNat (digit c)
      if et > p.exprtime then .error .expireTimeOverflow else .ok { p with exprtime := et }
    else
      let et := p.exprtime + Int32.ofNat (digit c)
      if et < p.exprtime then .error .expireTimeOverflow else .ok { p with exprtime := et }
  else .ok p

def stepBytes (p : Parser) (c : UInt8) : Except ParseError Parser :=
  if c = cr then .ok { p with state := .sLF }
  else if isDigit c then
    let b := p.bytes * 10 + UInt32.ofNat (digit c)
    if b < p.bytes then .error .bytesOverflow else .ok { p with bytes := b }
  else .ok p

def stepLF (p : Parser) (c : UInt8) : Except ParseError Parser :=
  if c = lf then .ok { p with parseComplete := true } else .error (.invalidChar c)

/-- The body of the loop of `Parse`, for one character. No branch has changed
the parser when it throws. -/
def step (p : Parser) (c : UInt8) : Except ParseError Parser :=
  match p.state with
  | .sName => p.stepName c
  | .spKey => p.stepPutKey c
  | .sgKey => p.stepGetKey c
  | .spFlags => p.stepFlags c
  | .spExprTimeStart => p.stepExprTimeStart c
  | .spExprTime => p.stepExprTime c
  | .spBytes => p.stepBytes c
  | .sLF => p.stepLF c
  | .sCR => .error .unknownState

/-- `Parse`. When it returns, its value is `parse_complete` and `parsed` the
number of bytes consumed; when it throws, `parsed` is 0. -/
def parse (p : Parser) (input : Bytes) : Result Parser ParseError :=
  scan parseComplete step p input

def parseAll (p : Parser) (chunks : List Bytes) : Result Parser ParseError :=
  feed parseComplete step p chunks

/-- `keys[0]`, undefined when there is none. -/
def buildInsert (p : Parser) (kind : InsertKind) : Option (Except Bytes (Option Command)) := do
  let key ← p.keys.head?
  pure (.ok (some (.insert kind ⟨key, p.flags, p.exprtime⟩)))

/-- `Build`, with `body_size` passed through: the null pointer while the header
is not over, a command, or a thrown error. -/
def build (p : Parser) (bodySize : UInt32) : Option (Except Bytes (Option Command) × UInt32) :=
  if p.state = .sLF then
    (if p.name = text "set" then p.buildInsert .set
    else if p.name = text "add" then p.buildInsert .add
    else if p.name = text "append" then p.buildInsert .append
    else if p.name = text "get" then some (.ok (some (.get p.keys)))
    else if p.name = text "stats" then some (.ok (some .stats))
    else some (.error (text "Unsupported command"))).map (·, p.bytes)
  else some (.ok none, bodySize)

end Parser

end Afina
