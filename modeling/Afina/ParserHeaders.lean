import Afina.ParserFields

namespace Afina

open Scan Decimal

/-- The names under which `Build` makes a storing command. -/
def putNames : List (Bytes × InsertKind) :=
  [(text "set", .set), (text "add", .add), (text "append", .append)]

/-- `<name> <key> <flags> <exptime> <bytes>\r\n`. -/
def putHeader (name key : Bytes) (flags : UInt32) (exptime : Int32) (bytes : UInt32) : Bytes :=
  name ++ [space] ++ (key ++ [space]) ++ (render flags.toNat ++ [space]) ++
    (renderInt exptime.toInt ++ [space]) ++ (render bytes.toNat ++ [cr]) ++ [lf]

/-- A storing header of a client but for its expiry time. -/
structure PutLine where
  name : Bytes
  kind : InsertKind
  named : (name, kind) ∈ putNames
  key : Bytes
  keyed : space ∉ key
  flags : Number
  bytes : Number

def PutLine.start (l : PutLine) : Bytes :=
  l.name ++ [space] ++ (l.key ++ [space]) ++ (l.flags.digits ++ [space])

def PutLine.header (l : PutLine) (exptime : Bytes) : Bytes :=
  l.start ++ (exptime ++ [space]) ++ (l.bytes.digits ++ [cr]) ++ [lf]

/-- `get k1 ... kn\r\n`. -/
def getHeader (keys : List Bytes) : Bytes :=
  text "get" ++ keys.flatMap (fun k => space :: k) ++ [cr] ++ [lf]

def statsHeader : Bytes := text "stats" ++ [cr] ++ [lf]

namespace Parser

theorem putName_chars {name : Bytes} {kind : InsertKind} (h : (name, kind) ∈ putNames) :
    ∀ c ∈ name, c ≠ space ∧ c ≠ cr := by
  simp only [putNames, List.mem_cons, Prod.mk.injEq, List.not_mem_nil, or_false] at h
  obtain ⟨rfl, _⟩ | ⟨rfl, _⟩ | ⟨rfl, _⟩ := h <;> decide +kernel

def afterPut (name key : Bytes) (flags : UInt32) (exptime : Int32) (bytes : UInt32) : Parser :=
  ⟨.sLF, name, [key], flags, parsedExpire exptime, bytes, decide (exptime.toInt < 0), key, true⟩

theorem reads_putName (negative : Bool) {name : Bytes} {kind : InsertKind}
    (hname : (name, kind) ∈ putNames) :
    (fresh negative).Reads (name ++ [space])
      { fresh negative with name := name, state := .spKey } := by
  refine (reads_name rfl rfl rfl (putName_chars hname)).trans (.single rfl ?_)
  simp only [putNames, List.mem_cons, Prod.mk.injEq, List.not_mem_nil, or_false] at hname
  obtain ⟨rfl, _⟩ | ⟨rfl, _⟩ | ⟨rfl, _⟩ := hname <;> rfl

def atExptime (l : PutLine) : Parser :=
  ⟨.spExprTimeStart, l.name, [l.key], l.flags.toUInt32, 0, 0, false, l.key, false⟩

theorem reads_putStart (negative : Bool) (l : PutLine) :
    (fresh negative).Reads l.start (atExptime l) :=
  ((reads_putName negative l.named).trans (reads_putKey rfl rfl rfl l.keyed)).trans
    (reads_flags rfl rfl rfl l.flags)

theorem reads_putLine (negative : Bool) (l : PutLine) {e : Exptime} (he : InInt32 e.sum) :
    (fresh negative).Reads (l.header e.text)
      ⟨.sLF, l.name, [l.key], l.flags.toUInt32, Int32.ofInt e.sum, l.bytes.toUInt32, e.negative,
        l.key, true⟩ := by
  have htimed := (reads_putStart negative l).trans (reads_exptime rfl rfl rfl rfl e he)
  have hsized := htimed.trans (reads_bytes rfl rfl rfl l.bytes)
  exact hsized.trans (reads_LF rfl rfl)

theorem reads_putHeader (negative : Bool) {name : Bytes} {kind : InsertKind}
    (hname : (name, kind) ∈ putNames) {key : Bytes} (hkey : space ∉ key) (flags : UInt32)
    (exptime : Int32) (bytes : UInt32) :
    (fresh negative).Reads (putHeader name key flags exptime bytes)
      (afterPut name key flags exptime bytes) := by
  have hread := reads_putLine negative
    ⟨name, kind, hname, key, hkey, .ofUInt32 flags, .ofUInt32 bytes⟩
    (Exptime.inInt32_sum_ofInt32 exptime)
  rw [Exptime.text_ofInt32, Exptime.sum_ofInt32, Number.toUInt32_ofUInt32,
    Number.toUInt32_ofUInt32] at hread
  exact hread

theorem build_afterPut {name : Bytes} {kind : InsertKind} (hname : (name, kind) ∈ putNames)
    (key : Bytes) (flags : UInt32) (exptime : Int32) (bytes b : UInt32) :
    (afterPut name key flags exptime bytes).build b =
      some (.ok (some (.insert kind ⟨key, flags, parsedExpire exptime⟩)), bytes) := by
  simp only [putNames, List.mem_cons, Prod.mk.injEq, List.not_mem_nil, or_false] at hname
  obtain ⟨rfl, rfl⟩ | ⟨rfl, rfl⟩ | ⟨rfl, rfl⟩ := hname <;> rfl

def afterGet (negative : Bool) (keys : List Bytes) : Parser :=
  ⟨.sLF, text "get", keys, 0, 0, 0, negative, [], true⟩

theorem reads_getHeader (negative : Bool) {keys : List Bytes} (hne : keys ≠ [])
    (hkeys : ∀ k ∈ keys, space ∉ k ∧ cr ∉ k) :
    (fresh negative).Reads (getHeader keys) (afterGet negative keys) := by
  obtain ⟨k, ks, rfl⟩ := List.exists_cons_of_ne_nil hne
  have hverb : (fresh negative).Reads (text "get" ++ [space])
      { fresh negative with name := text "get", state := .sgKey } :=
    (reads_name rfl rfl rfl (by decide +kernel)).trans (.single rfl rfl)
  have hfirst := hverb.trans (reads_getKey rfl rfl rfl (hkeys k List.mem_cons_self))
  have hall := hfirst.trans (reads_getKeys rfl rfl
    fun k' hk' => hkeys k' (List.mem_cons_of_mem k hk'))
  have hline := hall.trans (reads_LF rfl rfl)
  simpa [getHeader, afterGet, fresh] using hline

theorem build_afterGet (negative : Bool) (keys : List Bytes) (b : UInt32) :
    (afterGet negative keys).build b = some (.ok (some (.get keys)), 0) := rfl

def afterStats (negative : Bool) : Parser :=
  ⟨.sLF, text "stats", [], 0, 0, 0, negative, [], true⟩

theorem reads_statsHeader (negative : Bool) :
    (fresh negative).Reads statsHeader (afterStats negative) := by
  have hverb : (fresh negative).Reads (text "stats" ++ [cr])
      { fresh negative with name := text "stats", state := .sLF } :=
    (reads_name rfl rfl rfl (by decide +kernel)).trans (.single rfl rfl)
  exact hverb.trans (reads_LF rfl rfl)

theorem build_afterStats (negative : Bool) (b : UInt32) :
    (afterStats negative).build b = some (.ok (some .stats), 0) := rfl

end Parser

/-- However the input is cut, `Parse` ends in the same way as on the whole: with
the same fields, completion flag and number of bytes consumed, or by throwing at
the same byte. -/
theorem parse_chunks (p : Parser) (first : Bytes) (rest : List Bytes) :
    p.parseAll (first :: rest) = p.parse (first :: rest).flatten :=
  feed_eq_scan p (first :: rest)

example : (Parser.fresh true).parseAll [text "get a", [], text "b\r", text "\nx"] =
    .returned (Parser.afterGet true [text "ab"]) 8 := by decide

/-- A new parser reads back every well-formed header and nothing beyond it. -/
theorem header_round_trip (negative : Bool) :
    (∀ name kind, (name, kind) ∈ putNames → ∀ key, space ∉ key →
      ∀ (flags : UInt32) (exptime : Int32) (bytes : UInt32) (rest : Bytes), ∃ p expire,
        (Parser.fresh negative).parse (putHeader name key flags exptime bytes ++ rest) =
          .returned p (putHeader name key flags exptime bytes).length ∧
        p.parseComplete = true ∧
        ∀ b, p.build b = some (.ok (some (.insert kind ⟨key, flags, expire⟩)), bytes)) ∧
    (∀ keys, keys ≠ [] → (∀ k ∈ keys, space ∉ k ∧ cr ∉ k) → ∀ rest : Bytes, ∃ p,
      (Parser.fresh negative).parse (getHeader keys ++ rest) =
        .returned p (getHeader keys).length ∧
      p.parseComplete = true ∧ ∀ b, p.build b = some (.ok (some (.get keys)), 0)) := by
  constructor
  · intro name kind hname key hkey flags exptime bytes rest
    have hread := Parser.reads_putHeader negative hname hkey flags exptime bytes
    exact ⟨_, parsedExpire exptime, hread.scan_complete rfl rest, rfl,
      Parser.build_afterPut hname key flags exptime bytes⟩
  · intro keys hne hkeys rest
    have hread := Parser.reads_getHeader negative hne hkeys
    exact ⟨_, hread.scan_complete rfl rest, rfl, Parser.build_afterGet negative keys⟩

theorem header_round_trip_foo_bar :
    putHeader (text "add") (text "foo") 4294967295 (-12) 3 = text "add foo 4294967295 -12 3\r\n" ∧
    (∃ p expire, (Parser.fresh true).parse
        (putHeader (text "add") (text "foo") 4294967295 (-12) 3 ++ text "bar\r\n") =
          .returned p (putHeader (text "add") (text "foo") 4294967295 (-12) 3).length ∧
      p.parseComplete = true ∧
      ∀ b, p.build b = some (.ok (some (.insert .add ⟨text "foo", 4294967295, expire⟩)), 3)) ∧
    getHeader [text "foo", text "bar"] = text "get foo bar\r\n" ∧
    ∃ p, (Parser.fresh true).parse (getHeader [text "foo", text "bar"] ++ text "get") =
        .returned p (getHeader [text "foo", text "bar"]).length ∧
      p.parseComplete = true ∧
      ∀ b, p.build b = some (.ok (some (.get [text "foo", text "bar"])), 0) :=
  ⟨by decide,
    (header_round_trip true).1 _ _ (by decide) _ (by decide) _ _ _ _,
    by decide,
    (header_round_trip true).2 _ (by decide) (by decide) _⟩

end Afina
