import Afina.CacheSteps

namespace Afina

open TailShed KeyedList

/-- The `FreeSpace` call an operation makes, if any: the store it is made on,
after the splice of a present key, and its argument. -/
def Store.freeSpaceCall (s : Store) : Op → Option (Store × Int32)
  | .put k v =>
    let newSize := k.length + v.length
    if newSize > sizeT s.maxSize then none
    else
      match s.cacheMap k with
      | none => some (s, narrow newSize)
      | some it => do
        let old ← s.deref it
        let spliced ← s.spliceFront it
        pure (spliced, narrow (newSize - old.size))
  | .putIfAbsent k v =>
    let newSize := k.length + v.length
    if newSize > sizeT s.maxSize then none
    else
      match s.cacheMap k with
      | none => some (s, narrow newSize)
      | some _ => none
  | .set k v =>
    let newSize := k.length + v.length
    if newSize > sizeT s.maxSize then none
    else
      match s.cacheMap k with
      | none => none
      | some it => do
        let old ← s.deref it
        let spliced ← s.spliceFront it
        pure (spliced, narrow (newSize - old.size))
  | .delete _ => none
  | .get _ => none

/-- The loop of `FreeSpace` never takes the back of an empty list, and the entry
of a present key is still the front, and still the one its iterator denotes,
when the loop ends. -/
def Store.EvictionDefined (s : Store) (op : Op) : Prop :=
  ∀ t x, s.freeSpaceCall op = some (t, x) → ∃ u, t.freeSpace x = some u ∧
    ∀ it, s.cacheMap op.key = some it → ∃ n rest, u.lru = n :: rest ∧ n.key = op.key ∧
      u.cacheMap op.key = some it ∧ u.deref it = some n

/-- The counter with the requested growth, as an `int`, is over the limit by no
more than the bytes held under other keys. -/
def Cache.MakesRoom (c : Cache) (op : Op) : Prop :=
  ∀ plan ∈ c.request op, c.excess plan.1 ≤ c.rest op.key

instance (c : Cache) (op : Op) : Decidable (c.MakesRoom op) :=
  show Decidable (∀ plan ∈ c.request op, c.excess plan.1 ≤ c.rest op.key) from
    Option.decidableForallMem _

/-- These are the two ways for a call to have no result. -/
theorem Cache.step_isSome_iff (c : Cache) (op : Op) :
    (c.step op).isSome ↔ c.MakesRoom op ∧ c.DeleteMisses op := by
  cases hr : c.request op with
  | none =>
    have hroom : c.MakesRoom op := by simp [Cache.MakesRoom, hr]
    simp [Cache.step, hr, hroom]
  | some plan =>
    obtain ⟨extra, change⟩ := plan
    have hroom : c.MakesRoom op ↔ c.excess extra ≤ c.rest op.key := by simp [Cache.MakesRoom, hr]
    rw [and_iff_left (Cache.deleteMisses_of_request hr), hroom, Cache.step_of_request hr,
      Option.isSome_map, shed_isSome_iff]
    rfl

theorem Store.Valid.step_isSome_iff {s : Store} (h : s.Valid) (op : Op) :
    (s.step op).isSome ↔ s.cache.MakesRoom op ∧ s.DeleteMisses op := by
  rw [← h.linked.deleteMisses_iff op, ← Cache.step_isSome_iff, ← h.step_refines op,
    Option.isSome_map]

theorem Store.rest_cache (s : Store) (k : Bytes) :
    s.cache.rest k = weight Node.size (s.lru.filter (fun m => m.key != k)) := by
  rw [Cache.rest, others_cache, weight_map]
  rfl

theorem Store.Valid.freeSpaceCall_of_none {s : Store} (h : s.Valid) {op : Op}
    (hr : s.cache.request op = none) : s.freeSpaceCall op = none := by
  cases op with
  | put k v =>
    have hv : ¬ s.cache.Admits k v := by
      intro hv
      cases hc : s.cache.contents k <;> simp [Cache.request, hv, hc] at hr
    have hbig := mt h.admits_iff.mpr hv
    simp only [entrySize] at hbig
    simp [Store.freeSpaceCall, Nat.lt_of_not_le hbig]
  | putIfAbsent k v =>
    rcases h.linked.present_cases k with ⟨hm, hc⟩ | ⟨n, _, _, hm, _⟩
    · have hv : ¬ s.cache.Admits k v := fun hv => by simp [Cache.request, hv, hc] at hr
      have hbig := mt h.admits_iff.mpr hv
      simp only [entrySize] at hbig
      simp [Store.freeSpaceCall, Nat.lt_of_not_le hbig]
    · simp [Store.freeSpaceCall, hm]
  | set k v =>
    rcases h.linked.present_cases k with ⟨hm, _⟩ | ⟨n, _, _, hm, hc⟩
    · simp [Store.freeSpaceCall, hm]
    · have hv : ¬ s.cache.Admits k v := fun hv => by simp [Cache.request, hv, hc] at hr
      have hbig := mt h.admits_iff.mpr hv
      simp only [entrySize] at hbig
      simp [Store.freeSpaceCall, Nat.lt_of_not_le hbig]
  | delete k => rfl
  | get k => rfl

theorem Store.Valid.freeSpaceCall_of_some {s : Store} (h : s.Valid) {op : Op}
    {extra change : Int32} (hr : s.cache.request op = some (extra, change)) :
    (s.cacheMap op.key = none ∧ s.freeSpaceCall op = some (s, extra)) ∨
      ∃ n ∈ s.lru, n.key = op.key ∧ s.cacheMap op.key = some n.address ∧
        s.freeSpaceCall op = some (s.touched n, extra) := by
  obtain ⟨hadm, hcase⟩ := Cache.request_cases hr
  have hsmall : ¬ op.key.length + op.value.length > sizeT s.maxSize := by
    simpa [entrySize] using h.admits_iff.mp hadm
  rcases hcase with ⟨hc, hop, hx, _⟩ | ⟨old, hc, hx, hop⟩
  · rcases h.linked.present_cases op.key with ⟨hm, _⟩ | ⟨n, _, _, _, hc'⟩
    · refine Or.inl ⟨hm, ?_⟩
      rcases hop with hop | hop <;> rw [hop] <;>
        simp [Store.freeSpaceCall, hsmall, hm, hx, entrySize]
    · simp [hc] at hc'
  · rcases h.linked.present_cases op.key with ⟨_, hc'⟩ | ⟨n, hn, hk, hm, hc'⟩
    · simp [hc] at hc'
    · refine Or.inr ⟨n, hn, hk, hm, ?_⟩
      obtain ⟨_, hderef, hsplice⟩ := h.linked.located hn
      have hold : old = n.value := Option.some.inj (hc.symm.trans hc')
      have hgrow : ((op.key.length + op.value.length : Nat) : Int) - n.size =
          op.value.length - old.length := by
        rw [← hk, hold]
        exact n.growth op.value
      rcases hop with ⟨hop, _⟩ | ⟨hop, _⟩ <;> rw [hop] <;>
        simp only [Store.freeSpaceCall, if_neg hsmall, hm, hderef, hsplice, Option.bind_eq_bind,
          Option.bind_some, hgrow, hx, Option.pure_def]

theorem Store.Valid.evictionDefined_iff {s : Store} (h : s.Valid) (op : Op) :
    s.EvictionDefined op ↔ s.cache.MakesRoom op := by
  cases hr : s.cache.request op with
  | none => simp [Store.EvictionDefined, Cache.MakesRoom, hr, h.freeSpaceCall_of_none hr]
  | some plan =>
    obtain ⟨extra, change⟩ := plan
    have hroom : s.cache.MakesRoom op ↔ s.cache.excess extra ≤ s.cache.rest op.key := by
      simp [Cache.MakesRoom, hr]
    rw [hroom, Store.rest_cache, ← shed_isSome_iff]
    rcases h.freeSpaceCall_of_some hr with ⟨hm, hcall⟩ | ⟨n, hn, hk, hm, hcall⟩
    · have hiff : s.EvictionDefined op ↔ (s.freeSpace extra).isSome := by
        simp [Store.EvictionDefined, hcall, hm, Option.isSome_iff_exists]
      rw [hiff, h.linked.filter_absent hm, Store.freeSpace_eq extra h.fits, Option.isSome_map]
      rfl
    · rw [← hk]
      have hfree := h.freeSpace_touched hn extra
      cases hs : shed Node.size (s.cache.excess extra) (s.lru.filter (fun m => m.key != n.key)) with
      | some kept =>
        rw [hs] at hfree
        have hvalid := h.keep_touched hn (shed_isPrefix hs)
        refine ⟨fun _ => rfl, fun _ t x ht => ?_⟩
        cases hcall.symm.trans ht
        refine ⟨_, hfree, fun it hit => ⟨n, kept, rfl, hk, ?_⟩⟩
        cases hm.symm.trans hit
        refine ⟨(hvalid.map_iff _ _).mpr ⟨n, by simp [Store.keep], hk, rfl⟩, ?_⟩
        simp [Store.deref, Store.keep]
      | none =>
        rw [hs] at hfree
        refine ⟨fun hdef => ?_, fun hnone => by simp at hnone⟩
        obtain ⟨u, hu, hfront⟩ := hdef _ _ hcall
        obtain ⟨n', rest, hl, _⟩ := hfront _ hm
        rw [hfree] at hu
        dsimp only at hu
        split at hu
        next =>
          cases Option.some.inj hu
          simp [Store.keep] at hl
        next => simp at hu

/-- A list of calls on the empty store can be run, and every eviction loop ends
before the list is exhausted and spares the entry being overwritten, if and only if
in the state each call is made in the counter exceeds the limit by no more than the
bytes that can be evicted, and no `Delete` hits. -/
theorem eviction_defined_along_iff {m : Int32} (hm : 0 ≤ m) (calls : List Op) :
    ((PartialRun.run Store.step (Store.fresh m) calls).isSome ∧
        ∀ history s op, Store.Reach m history s → history.map Prod.fst ++ [op] <+: calls →
          s.EvictionDefined op) ↔
      ∀ history s op, Store.Reach m history s → history.map Prod.fst ++ [op] <+: calls →
        s.cache.MakesRoom op ∧ s.DeleteMisses op := by
  rw [PartialRun.run_isSome_iff]
  constructor
  · rintro ⟨hrun, _⟩ history s op reach hpre
    exact ((Store.Reach.valid hm reach).step_isSome_iff op).mp (hrun history s op reach hpre)
  · intro h
    constructor
    · intro history s op reach hpre
      exact ((Store.Reach.valid hm reach).step_isSome_iff op).mpr (h history s op reach hpre)
    · intro history s op reach hpre
      exact ((Store.Reach.valid hm reach).evictionDefined_iff op).mpr (h history s op reach hpre).1

/-- Every update by `Set` counts the key again: the next insertion is told to evict
more than the list holds. -/
theorem set_drift_evicts_empty :
    ∃ history s, Store.Reach 10 history s ∧
      history.map Prod.fst = .put (text "k") (text "1") ::
        List.replicate 5 (.set (text "k") (text "1")) ∧
      s.lru.map Node.key = [text "k"] ∧ s.currentSize = 7 ∧
      ¬ s.EvictionDefined (.put (text "q") (text "123456")) := by
  obtain ⟨history, s, reach, hcalls, ⟨hkeys, hsize⟩, hroom⟩ := PartialRun.reach_of_check
    Store.step (Store.fresh 10)
    (.put (text "k") (text "1") :: List.replicate 5 (.set (text "k") (text "1")))
    (fun s => (s.lru.map Node.key = [text "k"] ∧ s.currentSize = 7) ∧
      ¬ s.cache.MakesRoom (.put (text "q") (text "123456"))) (by decide)
  have hvalid := Store.Reach.valid (by decide) reach
  exact ⟨history, s, reach, hcalls, hkeys, hsize, mt (hvalid.evictionDefined_iff _).mp hroom⟩

theorem eviction_defined_along_iff_overwrite :
    (0 : Int32) ≤ 10 ∧
      ∀ history s op, Store.Reach 10 history s → history.map Prod.fst ++ [op] <+:
        [.put (text "a") (text "1"), .put (text "b") (text "123"), .put (text "a") (text "12345"),
          .set (text "b") (text "12"), .delete (text "d"), .put (text "c") (text "1234")] →
        s.EvictionDefined op :=
  ⟨by decide, ((eviction_defined_along_iff (by decide) _).mpr
    (PartialRun.holds_of_each (by decide))).2⟩

end Afina
