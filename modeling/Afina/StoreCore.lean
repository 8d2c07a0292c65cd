import Afina.Machine
import Afina.Lib.PartialRun
import Mathlib.Logic.Function.Basic

namespace Afina

/-- A node of `_lru`. The address is what a list iterator denotes. -/
structure Node where
  address : Nat
  key : Bytes
  value : Bytes
deriving DecidableEq, Repr

def Node.size (n : Node) : Nat := n.key.length + n.value.length

/-- `MapBasedGlobalLockImpl`. `_lru` is listed from front to back, `_cacheMap`
looks up by the value of the key string, and `nextAddress` is the allocator of
list nodes. A sum of two `int`s that overflows is taken to wrap. -/
structure Store where
  maxSize : Int32
  currentSize : Int32
  lru : List Node
  cacheMap : Bytes → Option Nat
  nextAddress : Nat

def Store.fresh (maxSize : Int32) : Store := ⟨maxSize, 0, [], fun _ => none, 0⟩

/-- The node an iterator denotes; a dangling iterator denotes none. -/
def Store.deref (s : Store) (it : Nat) : Option Node := s.lru.find? (fun n => n.address = it)

/-- `_lru.splice(_lru.begin(), _lru, it)`. -/
def Store.spliceFront (s : Store) (it : Nat) : Option Store := do
  let n ← s.deref it
  pure { s with lru := n :: s.lru.filter (fun m => m.address ≠ it) }

/-- One pass of the loop body of `FreeSpace`; `back()` of an empty list is
undefined. -/
def Store.evictBack (s : Store) : Option Store := do
  let last ← s.lru.getLast?
  pure { s with
    currentSize := s.currentSize - narrow last.size
    cacheMap := Function.update s.cacheMap last.key none
    lru := s.lru.dropLast }

/-- The loop of `FreeSpace`. Each pass shortens `_lru`, so its length bounds the
passes: with none left the list is empty and another pass would be undefined. -/
def Store.freeSpaceLoop : Nat → Store → Int32 → Option Store
  | 0, s, newSize => if s.currentSize + newSize > s.maxSize then none else some s
  | passes + 1, s, newSize =>
    if s.currentSize + newSize > s.maxSize then do
      let s ← s.evictBack
      freeSpaceLoop passes s newSize
    else some s

/-- `FreeSpace`. It never returns false, so its callers' error branches are
dead and only the state is kept. -/
def Store.freeSpace (s : Store) (newSize : Int32) : Option Store :=
  s.freeSpaceLoop s.lru.length newSize

/-- The insertion shared by `Put` and `PutIfAbsent`: `push_front`, the map
entry, and the size counter. -/
def Store.pushFront (s : Store) (key value : Bytes) : Store :=
  { s with
    lru := ⟨s.nextAddress, key, value⟩ :: s.lru
    cacheMap := Function.update s.cacheMap key (some s.nextAddress)
    nextAddress := s.nextAddress + 1
    currentSize := s.currentSize + narrow (key.length + value.length) }

/-- `_lru.front().second = value`. -/
def Store.assignFront (s : Store) (value : Bytes) : Option Store :=
  match s.lru with
  | [] => none
  | n :: rest => some { s with lru := { n with value := value } :: rest }

/-- The result is `none` where the source has no defined behaviour: the front
or back of an empty list, a dangling iterator, or a key that was destroyed. -/
def Store.put (s : Store) (key value : Bytes) : Option (Store × Bool) :=
  let newSize := key.length + value.length
  if newSize > sizeT s.maxSize then some (s, false)
  else
    match s.cacheMap key with
    | none => do
      let s ← s.freeSpace (narrow newSize)
      pure (s.pushFront key value, true)
    | some it => do
      let old ← s.deref it
      let s ← s.spliceFront it
      let s ← s.freeSpace (narrow (newSize - old.size))
      let s ← s.assignFront value
      pure (s, true)

def Store.putIfAbsent (s : Store) (key value : Bytes) : Option (Store × Bool) :=
  let newSize := key.length + value.length
  if newSize > sizeT s.maxSize then some (s, false)
  else
    match s.cacheMap key with
    | none => do
      let s ← s.freeSpace (narrow newSize)
      pure (s.pushFront key value, true)
    | some _ => some (s, false)

/-- `Set` reads the old value through the map iterator only after `FreeSpace`,
and adds the whole entry size after taking off the value size alone. -/
def Store.set (s : Store) (key value : Bytes) : Option (Store × Bool) :=
  let newSize := key.length + value.length
  if newSize > sizeT s.maxSize then some (s, false)
  else
    match s.cacheMap key with
    | none => some (s, false)
    | some it => do
      let old ← s.deref it
      let s ← s.spliceFront it
      let s ← s.freeSpace (narrow (newSize - old.size))
      let it ← s.cacheMap key
      let node ← s.deref it
      let s := { s with currentSize := s.currentSize - narrow node.value.length }
      let s ← s.assignFront value
      pure ({ s with currentSize := s.currentSize + narrow newSize }, true)

/-- A hit has no result. `_lru.erase(item->second)` destroys the node, and with it
the key string that `_cacheMap` only refers to, and `_cacheMap.erase(key)` then
compares `key` with that string. -/
def Store.delete (s : Store) (key : Bytes) : Option (Store × Bool) :=
  match s.cacheMap key with
  | none => some (s, false)
  | some _ => none

/-- `Get`: `some v` when it returned true with `v` in its output parameter. -/
def Store.get (s : Store) (key : Bytes) : Option (Store × Option Bytes) :=
  match s.cacheMap key with
  | none => some (s, none)
  | some it => do
    let s ← s.spliceFront it
    let front ← s.lru.head?
    pure (s, some front.value)

inductive Op
  | put (key value : Bytes)
  | putIfAbsent (key value : Bytes)
  | set (key value : Bytes)
  | delete (key : Bytes)
  | get (key : Bytes)
deriving DecidableEq, Repr

inductive Reply
  | status (ok : Bool)
  | value (found : Option Bytes)
deriving DecidableEq, Repr

/-- The call is not a `Delete` that finds its key. -/
def Store.DeleteMisses (s : Store) : Op → Prop
  | .put _ _ => True
  | .putIfAbsent _ _ => True
  | .set _ _ => True
  | .delete k => s.cacheMap k = none
  | .get _ => True

instance (s : Store) (op : Op) : Decidable (s.DeleteMisses op) :=
  match op with
  | .put _ _ => inferInstanceAs (Decidable True)
  | .putIfAbsent _ _ => inferInstanceAs (Decidable True)
  | .set _ _ => inferInstanceAs (Decidable True)
  | .delete k => inferInstanceAs (Decidable (s.cacheMap k = none))
  | .get _ => inferInstanceAs (Decidable True)

def Store.step (s : Store) : Op → Option (Store × Reply)
  | .put k v => (s.put k v).map fun r => (r.1, .status r.2)
  | .putIfAbsent k v => (s.putIfAbsent k v).map fun r => (r.1, .status r.2)
  | .set k v => (s.set k v).map fun r => (r.1, .status r.2)
  | .delete k => (s.delete k).map fun r => (r.1, .status r.2)
  | .get k => (s.get k).map fun r => (r.1, .value r.2)

/-- States a store constructed with this limit reaches, and the calls made. -/
abbrev Store.Reach (maxSize : Int32) : List (Op × Reply) → Store → Prop :=
  PartialRun.Reach Store.step (Store.fresh maxSize)

def Store.bytesHeld (s : Store) : Nat := (s.lru.map Node.size).sum

end Afina
