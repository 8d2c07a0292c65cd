import Afina.CacheSteps
import Afina.Lib.Decimal

namespace Afina

open TailShed KeyedList

structure InsertCommand where
  key : Bytes
  flags : UInt32
  expire : Int32
deriving DecidableEq, Repr

inductive InsertKind
  | set
  | add
  | append
  | replace
deriving DecidableEq, Repr

inductive Command
  | insert (kind : InsertKind) (data : InsertCommand)
  | get (keys : List Bytes)
  | stats
deriving DecidableEq, Repr

def stored : Bytes := text "STORED"

def notStored : Bytes := text "NOT_STORED"

/-- `Set::Execute` does not look at what `Put` returned. -/
def setExecute (c : InsertCommand) (s : Store) (args : Bytes) : Option (Store × Bytes) := do
  let (s, _) ← s.put c.key args
  pure (s, stored)

def addExecute (c : InsertCommand) (s : Store) (args : Bytes) : Option (Store × Bytes) := do
  let (s, ok) ← s.putIfAbsent c.key args
  pure (s, if ok then stored else notStored)

/-- `Append::Execute` replies from the earlier `Get`, not from its `Put`. -/
def appendExecute (c : InsertCommand) (s : Store) (args : Bytes) : Option (Store × Bytes) := do
  let (s, found) ← s.get c.key
  match found with
  | none => pure (s, notStored)
  | some value =>
    let (s, _) ← s.put c.key (value ++ args)
    pure (s, stored)

/-- `Replace::Execute` replies from the earlier `Get`, not from its `Set`. -/
def replaceExecute (c : InsertCommand) (s : Store) (args : Bytes) : Option (Store × Bytes) := do
  let (s, found) ← s.get c.key
  match found with
  | none => pure (s, notStored)
  | some _ =>
    let (s, _) ← s.set c.key args
    pure (s, stored)

def getItem (key value : Bytes) : Bytes :=
  text "VALUE " ++ key ++ text " 0 " ++ Decimal.render value.length ++ text "\r\n" ++ value ++ text "\r\n"

/-- The loop of `Get::Execute` over the requested keys. -/
def getItems : List Bytes → Store → Option (Store × Bytes)
  | [], s => some (s, [])
  | key :: keys, s => do
    let (s, found) ← s.get key
    let (s, rest) ← getItems keys s
    match found with
    | none => pure (s, rest)
    | some value => pure (s, getItem key value ++ rest)

def getExecute (keys : List Bytes) (s : Store) : Option (Store × Bytes) := do
  let (s, items) ← getItems keys s
  pure (s, items ++ text "END")

def InsertKind.execute : InsertKind → InsertCommand → Store → Bytes → Option (Store × Bytes)
  | .set => setExecute
  | .add => addExecute
  | .append => appendExecute
  | .replace => replaceExecute

/-- The virtual `Command::Execute`: the new storage and the reply text. -/
def Command.execute : Command → Store → Bytes → Option (Store × Bytes)
  | .insert kind data, s, args => kind.execute data s args
  | .get keys, s, _ => getExecute keys s
  | .stats, s, _ => some (s, text "END")

theorem Store.Valid.get_spec {s : Store} (h : s.Valid) (k : Bytes) :
    ∃ t, s.get k = some (t, s.cache.contents k) ∧ t.Valid ∧
      t.cache.contents = s.cache.contents ∧ t.maxSize = s.maxSize := by
  obtain ⟨t, hs, hv, hc⟩ := h.step_settle (rfl : s.cache.request (.get k) = none) trivial
  cases ho : s.cache.contents k with
  | none =>
    simp only [Cache.settle, ho] at hs hc
    obtain ⟨⟨t', found⟩, hg, he⟩ := Option.map_eq_some_iff.mp hs
    cases he
    exact ⟨_, hg, hv, by rw [hc], congrArg Cache.limit hc⟩
  | some v =>
    simp only [Cache.settle, ho] at hs hc
    obtain ⟨⟨t', found⟩, hg, he⟩ := Option.map_eq_some_iff.mp hs
    cases he
    exact ⟨_, hg, hv, by rw [hc, Cache.contents_touched ho], congrArg Cache.limit hc⟩

theorem Store.Valid.write_spec {s t : Store} (h : s.Valid) {op : Op} {r : Reply}
    {plan : Int32 × Int32} (hr : s.cache.request op = some plan) (hs : s.step op = some (t, r)) :
    r = .status true ∧ t.Valid ∧ t.cache.contents op.key = some op.value := by
  rcases Cache.step_cases (h.cache_step hs) with ⟨extra, change, kept, _, hreply, _, hc⟩ |
    ⟨k, v, rfl, _⟩ | ⟨_, hnone, _⟩
  · exact ⟨hreply, h.step hs, by rw [hc]; exact Cache.rewritten_contents_self _ _ _ _ _⟩
  · simp [Cache.request] at hr
  · simp [hnone] at hr

/-- A write that is refused for its size leaves the store alone; one that is
carried out makes its association visible. -/
def WriteResult (s t : Store) (k v : Bytes) (ok : Bool) : Prop :=
  t.Valid ∧ ((s.cache.Admits k v ∧ ok = true ∧ t.cache.contents k = some v) ∨
    (¬ s.cache.Admits k v ∧ ok = false ∧ t = s))

theorem Store.Valid.put_spec {s t : Store} (h : s.Valid) {k v : Bytes} {ok : Bool}
    (hp : s.put k v = some (t, ok)) : WriteResult s t k v ok := by
  by_cases hv : s.cache.Admits k v
  · obtain ⟨plan, hr⟩ : ∃ plan, s.cache.request (.put k v) = some plan := by
      cases hc : s.cache.contents k <;> simp [Cache.request, hv, hc]
    have hs : s.step (.put k v) = some (t, .status ok) := by simp [Store.step, hp]
    obtain ⟨hok, ht, hc⟩ := h.write_spec hr hs
    cases hok
    exact ⟨ht, Or.inl ⟨hv, rfl, hc⟩⟩
  · rw [(h.refused hv).1] at hp
    cases hp
    exact ⟨h, Or.inr ⟨hv, rfl, rfl⟩⟩

end Afina
