import Afina.StoreCore
import Afina.Lib.KeyedList

namespace Afina

open TailShed KeyedList

def entrySize (e : Bytes × Bytes) : Nat := e.1.length + e.2.length

def Op.key : Op → Bytes
  | .put k _ => k
  | .putIfAbsent k _ => k
  | .set k _ => k
  | .delete k => k
  | .get k => k

def Op.value : Op → Bytes
  | .put _ v => v
  | .putIfAbsent _ v => v
  | .set _ v => v
  | .delete _ => []
  | .get _ => []

/-- What the store is for: a recency list of associations, most recent first,
under a byte limit that is policed by a counter. -/
structure Cache where
  limit : Int32
  counter : Int32
  entries : List (Bytes × Bytes)
deriving DecidableEq, Repr

namespace Cache

def fresh (limit : Int32) : Cache := ⟨limit, 0, []⟩

def contents (c : Cache) (k : Bytes) : Option Bytes := c.entries.lookup k

def total (c : Cache) : Nat := weight entrySize c.entries

/-- How far the counter, with the requested extra bytes, is over the limit. -/
def excess (c : Cache) (extra : Int32) : Int := (c.counter + extra).toInt - c.limit.toInt

def rewritten (c : Cache) (k v : Bytes) (change : Int32) (kept : List (Bytes × Bytes)) : Cache :=
  { c with
    entries := (k, v) :: kept
    counter := c.counter
      - narrow (weight entrySize (others k c.entries) - weight entrySize kept) + change }

/-- Write an association, after dropping the shortest tail of the other entries
that satisfies the counter. -/
def write (c : Cache) (k v : Bytes) (extra change : Int32) : Option Cache :=
  (shed entrySize (c.excess extra) (others k c.entries)).map (c.rewritten k v change)

/-- A write is refused when the entry alone is larger than the limit. -/
def Admits (c : Cache) (k v : Bytes) : Prop := (entrySize (k, v) : Int) ≤ c.limit.toInt

instance (c : Cache) (k v : Bytes) : Decidable (c.Admits k v) :=
  inferInstanceAs (Decidable ((entrySize (k, v) : Int) ≤ c.limit.toInt))

/-- For a write that is carried out: the extra bytes it asks of the limit and
the change it then makes to the counter. -/
def request (c : Cache) : Op → Option (Int32 × Int32)
  | .put k v =>
    if c.Admits k v then
      match c.contents k with
      | none => some (narrow (entrySize (k, v)), narrow (entrySize (k, v)))
      | some old => some (narrow (v.length - old.length), 0)
    else none
  | .putIfAbsent k v =>
    if c.Admits k v then
      match c.contents k with
      | none => some (narrow (entrySize (k, v)), narrow (entrySize (k, v)))
      | some _ => none
    else none
  | .set k v =>
    if c.Admits k v then
      match c.contents k with
      | none => none
      | some old => some (narrow (v.length - old.length), narrow (entrySize (k, v) - old.length))
    else none
  | .delete _ => none
  | .get _ => none

/-- The call is not a removal of a key that is present. -/
def DeleteMisses (c : Cache) : Op → Prop
  | .put _ _ => True
  | .putIfAbsent _ _ => True
  | .set _ _ => True
  | .delete k => c.contents k = none
  | .get _ => True

instance (c : Cache) (op : Op) : Decidable (c.DeleteMisses op) :=
  match op with
  | .put _ _ => inferInstanceAs (Decidable True)
  | .putIfAbsent _ _ => inferInstanceAs (Decidable True)
  | .set _ _ => inferInstanceAs (Decidable True)
  | .delete k => inferInstanceAs (Decidable (c.contents k = none))
  | .get _ => inferInstanceAs (Decidable True)

/-- The calls that write nothing: lookup, the refused writes, and a removal that
misses. -/
def settle (c : Cache) : Op → Cache × Reply
  | .get k =>
    match c.contents k with
    | none => (c, .value none)
    | some v => ({ c with entries := (k, v) :: others k c.entries }, .value (some v))
  | _ => (c, .status false)

/-- One call; undefined when the other entries cannot make room, and for a removal
that hits. -/
def step (c : Cache) (op : Op) : Option (Cache × Reply) :=
  match c.request op with
  | some (extra, change) => (c.write op.key op.value extra change).map (·, .status true)
  | none => if c.DeleteMisses op then some (c.settle op) else none

end Cache

end Afina
