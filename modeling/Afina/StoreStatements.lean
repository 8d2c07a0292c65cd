import Afina.Lib.Guarded
import Afina.CacheModel

namespace Afina

/-- The callers of `FreeSpace`, with what they have left to do behind it: the
branch of `Put` and `PutIfAbsent` for a new key, that of `Put` for a present one,
and that of `Set`. -/
inductive FreeSpaceCaller
  | insert (key value : Bytes)
  | overwrite (value : Bytes)
  | update (key value : Bytes)
deriving DecidableEq, Repr

/-- Where a method is under the lock, with its local variables. -/
inductive Position
  | find (op : Op)
  | found (op : Op) (it : Option Nat)
  | admitted (op : Op) (it : Option Nat)
  | splice (it : Nat) (newSize : Int32) (caller : FreeSpaceCaller)
  | freeTest (newSize : Int32) (caller : FreeSpaceCaller)
  | freeBack (newSize : Int32) (caller : FreeSpaceCaller)
  | freeSize (newSize : Int32) (caller : FreeSpaceCaller) (last : Node)
  | freeErase (newSize : Int32) (caller : FreeSpaceCaller) (last : Node)
  | freePop (newSize : Int32) (caller : FreeSpaceCaller)
  | freed (caller : FreeSpaceCaller)
  | link (newSize : Nat)
  | count (newSize : Nat)
  | assign (newSize : Nat) (value : Bytes)
  | touch (it : Nat)
  | readFront
  | eraseNode (it : Nat) (key : Bytes)
  | eraseKey (key : Bytes)
  | returned (reply : Reply)
deriving DecidableEq, Repr

def Position.reply : Position → Option Reply
  | .returned r => some r
  | _ => none

namespace Store

/-- The size test that comes first in all methods that write. -/
def sizeTest (s : Store) (op : Op) (it : Option Nat) (newSize : Nat) : Position :=
  if newSize > sizeT s.maxSize then .returned (.status false) else .admitted op it

/-- The branches behind the size test. -/
def branch (s : Store) : Op → Option Nat → Option Position
  | .put k v, none => some (.freeTest (narrow (k.length + v.length : Nat)) (.insert k v))
  | .putIfAbsent k v, none => some (.freeTest (narrow (k.length + v.length : Nat)) (.insert k v))
  | .put k v, some it => do
    let old ← s.deref it
    pure (.splice it (narrow ((k.length + v.length : Nat) - old.size)) (.overwrite v))
  | .putIfAbsent _ _, some _ => some (.returned (.status false))
  | .set _ _, none => some (.returned (.status false))
  | .set k v, some it => do
    let old ← s.deref it
    pure (.splice it (narrow ((k.length + v.length : Nat) - old.size)) (.update k v))
  | .delete _, none => some (.returned (.status false))
  | .delete k, some it => some (.eraseNode it k)
  | .get _, none => some (.returned (.value none))
  | .get _, some it => some (.touch it)

/-- One statement of a method of `MapBasedGlobalLockImpl`, its lock apart. The last of
a `Delete` that hits has no result: the map compares with the key string of the node
that the statement before has destroyed. -/
def stmt (s : Store) : Position → Option (Store × Position)
  | .find op => some (s, .found op (s.cacheMap op.key))
  | .found (.put k v) it => some (s, s.sizeTest (.put k v) it (k.length + v.length))
  | .found (.putIfAbsent k v) it => some (s, s.sizeTest (.putIfAbsent k v) it (k.length + v.length))
  | .found (.set k v) it => some (s, s.sizeTest (.set k v) it (k.length + v.length))
  | .found (.delete k) it => some (s, .admitted (.delete k) it)
  | .found (.get k) it => some (s, .admitted (.get k) it)
  | .admitted op it => (s.branch op it).map (s, ·)
  | .splice it newSize caller => (s.spliceFront it).map (·, .freeTest newSize caller)
  | .freeTest newSize caller =>
    if s.currentSize + newSize > s.maxSize then some (s, .freeBack newSize caller)
    else some (s, .freed caller)
  | .freeBack newSize caller => s.lru.getLast?.map fun last => (s, .freeSize newSize caller last)
  | .freeSize newSize caller last =>
    some ({ s with currentSize := s.currentSize - narrow last.size }, .freeErase newSize caller last)
  | .freeErase newSize caller last =>
    some ({ s with cacheMap := Function.update s.cacheMap last.key none }, .freePop newSize caller)
  | .freePop newSize caller => some ({ s with lru := s.lru.dropLast }, .freeTest newSize caller)
  | .freed (.insert k v) =>
    some ({ s with lru := ⟨s.nextAddress, k, v⟩ :: s.lru, nextAddress := s.nextAddress + 1 },
      .link (k.length + v.length))
  | .freed (.overwrite v) => (s.assignFront v).map (·, .returned (.status true))
  | .freed (.update k v) => do
    let it ← s.cacheMap k
    let node ← s.deref it
    pure ({ s with currentSize := s.currentSize - narrow node.value.length },
      .assign (k.length + v.length) v)
  | .link newSize => do
    let front ← s.lru.head?
    pure ({ s with cacheMap := Function.update s.cacheMap front.key (some front.address) },
      .count newSize)
  | .count newSize =>
    some ({ s with currentSize := s.currentSize + narrow newSize }, .returned (.status true))
  | .assign newSize v => (s.assignFront v).map (·, .count newSize)
  | .touch it => (s.spliceFront it).map (·, .readFront)
  | .readFront => s.lru.head?.map fun front => (s, .returned (.value (some front.value)))
  | .eraseNode it k =>
    (s.deref it).map fun _ => ({ s with lru := s.lru.filter (fun m => m.address ≠ it) }, .eraseKey k)
  | .eraseKey _ => none
  | .returned _ => none

end Store

/-- The methods of the storage, statement by statement. -/
def storeCode : Guarded.Code Store Position Op Reply := ⟨.find, Store.stmt, Position.reply⟩

namespace Store

/-- A statement that may be undefined, and the rest behind it. -/
theorem ends_of_map {α : Type} {s : Store} {p : Position} {x : Option α} {f : α → Store × Position}
    {o : α → Option (Store × Reply)} (hp : p.reply = none) (hs : s.stmt p = x.map f)
    (h : ∀ a, storeCode.Ends (f a).1 (f a).2 (o a)) : storeCode.Ends s p (x.bind o) := by
  cases x with
  | none => exact .undefined hp hs
  | some a => exact .next hp hs (h a)

/-- One pass of the loop of `FreeSpace`. -/
theorem ends_pass {s : Store} {x : Int32} {caller : FreeSpaceCaller}
    {o : Store → Option (Store × Reply)} (hfull : s.currentSize + x > s.maxSize)
    (h : ∀ t, s.evictBack = some t → storeCode.Ends t (.freeTest x caller) (o t)) :
    storeCode.Ends s (.freeTest x caller) (s.evictBack.bind o) := by
  refine .next rfl (if_pos hfull) ?_
  cases hlast : s.lru.getLast? with
  | none =>
    have hundefined : s.evictBack = none := by simp [evictBack, hlast]
    rw [hundefined]
    exact .undefined rfl (by simp [storeCode, stmt, hlast])
  | some last =>
    have hevict : s.evictBack = some { s with
        currentSize := s.currentSize - narrow last.size
        cacheMap := Function.update s.cacheMap last.key none
        lru := s.lru.dropLast } := by simp [evictBack, hlast]
    rw [hevict]
    refine .next rfl (t := s) (q := .freeSize x caller last) (by simp [storeCode, stmt, hlast]) ?_
    exact .next rfl rfl (.next rfl rfl (.next rfl rfl (h _ hevict)))

/-- The loop of `FreeSpace` as its callers run it. -/
theorem ends_freeTest {caller : FreeSpaceCaller} {o : Store → Option (Store × Reply)}
    (h : ∀ t, storeCode.Ends t (.freed caller) (o t)) (s : Store) (x : Int32) :
    storeCode.Ends s (.freeTest x caller) ((s.freeSpace x).bind o) := by
  unfold freeSpace
  generalize hn : s.lru.length = passes
  induction passes generalizing s with
  | zero =>
    rw [freeSpaceLoop]
    split
    next hfull =>
      refine .next rfl (if_pos hfull) (.undefined rfl ?_)
      simp [storeCode, stmt, List.length_eq_zero_iff.mp hn]
    next hfits => exact .next rfl (if_neg hfits) (h s)
  | succ passes ih =>
    rw [freeSpaceLoop]
    split
    next hfull =>
      rw [Option.bind_eq_bind, Option.bind_assoc]
      refine ends_pass hfull fun t ht => ih t ?_
      obtain ⟨last, _, ht⟩ := Option.bind_eq_some_iff.mp ht
      cases Option.some.inj ht
      simp [hn]
    next hfits => exact .next rfl (if_neg hfits) (h s)

/-- What the callers of `FreeSpace` do behind it, at once. -/
def finish : FreeSpaceCaller → Store → Option (Store × Reply)
  | .insert k v, s => some (s.pushFront k v, .status true)
  | .overwrite v, s => (s.assignFront v).bind fun t => some (t, .status true)
  | .update k v, s => (s.cacheMap k).bind fun it => (s.deref it).bind fun node =>
      (assignFront { s with currentSize := s.currentSize - narrow node.value.length } v).bind
        fun t => some ({ t with
          currentSize := t.currentSize + narrow (k.length + v.length : Nat) }, .status true)

theorem ends_freed (caller : FreeSpaceCaller) (s : Store) :
    storeCode.Ends s (.freed caller) (finish caller s) := by
  cases caller with
  | insert k v => exact .next rfl rfl (.next rfl rfl (.next rfl rfl (.returns rfl)))
  | overwrite v => exact ends_of_map rfl rfl fun _ => .returns rfl
  | update k v =>
    cases hm : s.cacheMap k with
    | none =>
      rw [finish, hm]
      exact .undefined rfl (by simp [storeCode, stmt, hm])
    | some it =>
      cases hd : s.deref it with
      | none =>
        rw [finish, hm, Option.bind_some, hd]
        exact .undefined rfl (by simp [storeCode, stmt, hm, hd])
      | some node =>
        rw [finish, hm, Option.bind_some, hd, Option.bind_some]
        refine .next rfl
          (t := { s with currentSize := s.currentSize - narrow node.value.length })
          (q := .assign (k.length + v.length) v) (by simp [storeCode, stmt, hm, hd]) ?_
        exact ends_of_map rfl rfl fun t => .next rfl rfl (.returns rfl)

theorem ends_splice (s : Store) (it : Nat) (x : Int32) (caller : FreeSpaceCaller) :
    storeCode.Ends s (.splice it x caller)
      ((s.spliceFront it).bind fun t => (t.freeSpace x).bind (finish caller)) :=
  ends_of_map rfl rfl fun t => ends_freeTest (ends_freed caller) t x

/-- The branches of the methods, at once. -/
def outcome (s : Store) : Op → Option Nat → Option (Store × Reply)
  | .put k v, none => (s.freeSpace (narrow (k.length + v.length : Nat))).bind (finish (.insert k v))
  | .putIfAbsent k v, none =>
    (s.freeSpace (narrow (k.length + v.length : Nat))).bind (finish (.insert k v))
  | .put k v, some it => (s.deref it).bind fun old => (s.spliceFront it).bind fun t =>
      (t.freeSpace (narrow ((k.length + v.length : Nat) - old.size))).bind (finish (.overwrite v))
  | .putIfAbsent _ _, some _ => some (s, .status false)
  | .set _ _, none => some (s, .status false)
  | .set k v, some it => (s.deref it).bind fun old => (s.spliceFront it).bind fun t =>
      (t.freeSpace (narrow ((k.length + v.length : Nat) - old.size))).bind (finish (.update k v))
  | .delete _, none => some (s, .status false)
  | .delete _, some _ => none
  | .get _, none => some (s, .value none)
  | .get _, some it => (s.spliceFront it).bind fun t => t.lru.head?.bind fun front =>
      some (t, .value (some front.value))

/-- The branches that read the size of the old entry first. -/
theorem ends_old {s : Store} {op : Op} {it : Nat} {k v : Bytes} {caller : FreeSpaceCaller}
    (hbranch : s.branch op (some it) = (s.deref it).map fun old =>
      .splice it (narrow ((k.length + v.length : Nat) - old.size)) caller) :
    storeCode.Ends s (.admitted op (some it))
      ((s.deref it).bind fun old => (s.spliceFront it).bind fun t =>
        (t.freeSpace (narrow ((k.length + v.length : Nat) - old.size))).bind (finish caller)) := by
  refine ends_of_map (f := fun old =>
    (s, .splice it (narrow ((k.length + v.length : Nat) - old.size)) caller)) rfl ?_
    fun old => ends_splice s it _ caller
  rw [stmt, hbranch, Option.map_map]
  rfl

theorem ends_admitted (s : Store) (op : Op) (it : Option Nat) :
    storeCode.Ends s (.admitted op it) (s.outcome op it) := by
  cases op with
  | put k v =>
    cases it with
    | none => exact .next rfl rfl (ends_freeTest (ends_freed (.insert k v)) s _)
    | some it => exact ends_old (Option.map_eq_bind.symm)
  | putIfAbsent k v =>
    cases it with
    | none => exact .next rfl rfl (ends_freeTest (ends_freed (.insert k v)) s _)
    | some it => exact .next rfl rfl (.returns rfl)
  | set k v =>
    cases it with
    | none => exact .next rfl rfl (.returns rfl)
    | some it => exact ends_old (Option.map_eq_bind.symm)
  | delete k =>
    cases it with
    | none => exact .next rfl rfl (.returns rfl)
    | some it =>
      refine .next rfl rfl ?_
      cases hd : s.deref it with
      | none => exact .undefined rfl (by simp [storeCode, stmt, hd])
      | some n =>
        refine .next rfl (t := { s with lru := s.lru.filter (fun m => m.address ≠ it) })
          (q := .eraseKey k) (by simp [storeCode, stmt, hd]) ?_
        exact .undefined rfl rfl
  | get k =>
    cases it with
    | none => exact .next rfl rfl (.returns rfl)
    | some it =>
      refine .next rfl rfl (ends_of_map rfl rfl fun t => ?_)
      exact ends_of_map rfl rfl fun front => .returns rfl

/-- The size test of the methods that write, in front of their branches. -/
theorem ends_found {s : Store} {op : Op} {it : Option Nat} {newSize : Nat}
    (hfound : s.stmt (.found op it) = some (s, s.sizeTest op it newSize)) :
    storeCode.Ends s (.found op it)
      (if newSize > sizeT s.maxSize then some (s, .status false) else s.outcome op it) := by
  refine .next rfl hfound ?_
  unfold sizeTest
  split
  · exact .returns rfl
  · exact ends_admitted s op it

theorem step_put (s : Store) (k v : Bytes) : s.step (.put k v) =
    if k.length + v.length > sizeT s.maxSize then some (s, .status false)
    else s.outcome (.put k v) (s.cacheMap k) := by
  simp only [step, put]
  split
  next => rfl
  next =>
    cases s.cacheMap k with
    | none =>
      simp only [outcome, Option.bind_eq_bind, Option.map_bind, Function.comp_def]
      rfl
    | some it =>
      simp only [outcome, Option.bind_eq_bind, Option.map_bind, Function.comp_def]
      rfl

theorem step_putIfAbsent (s : Store) (k v : Bytes) : s.step (.putIfAbsent k v) =
    if k.length + v.length > sizeT s.maxSize then some (s, .status false)
    else s.outcome (.putIfAbsent k v) (s.cacheMap k) := by
  simp only [step, putIfAbsent]
  split
  next => rfl
  next =>
    cases s.cacheMap k with
    | none =>
      simp only [outcome, Option.bind_eq_bind, Option.map_bind, Function.comp_def]
      rfl
    | some it => rfl

theorem step_set (s : Store) (k v : Bytes) : s.step (.set k v) =
    if k.length + v.length > sizeT s.maxSize then some (s, .status false)
    else s.outcome (.set k v) (s.cacheMap k) := by
  simp only [step, set]
  split
  next => rfl
  next =>
    cases s.cacheMap k with
    | none => rfl
    | some it =>
      simp only [outcome, Option.bind_eq_bind, Option.map_bind, Function.comp_def]
      rfl

theorem step_delete (s : Store) (k : Bytes) :
    s.step (.delete k) = s.outcome (.delete k) (s.cacheMap k) := by
  simp only [step, delete]
  cases s.cacheMap k <;> simp [outcome]

theorem step_get (s : Store) (k : Bytes) :
    s.step (.get k) = s.outcome (.get k) (s.cacheMap k) := by
  simp only [step, get]
  cases s.cacheMap k <;> simp [outcome, Option.map_bind]

end Store

/-- A method that runs alone ends as the atomic call does. -/
theorem storeCode_ends (s : Store) (op : Op) :
    storeCode.Ends s (storeCode.entry op) (s.step op) := by
  refine .next rfl rfl ?_
  cases op with
  | put k v =>
    rw [Store.step_put]
    exact Store.ends_found rfl
  | putIfAbsent k v =>
    rw [Store.step_putIfAbsent]
    exact Store.ends_found rfl
  | set k v =>
    rw [Store.step_set]
    exact Store.ends_found rfl
  | delete k =>
    rw [Store.step_delete]
    exact .next rfl rfl (Store.ends_admitted s _ _)
  | get k =>
    rw [Store.step_get]
    exact .next rfl rfl (Store.ends_admitted s _ _)

end Afina
