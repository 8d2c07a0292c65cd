import Afina.StoreEviction
import Mathlib.Data.List.Nodup

namespace Afina

open TailShed KeyedList

def Node.entry (n : Node) : Bytes × Bytes := (n.key, n.value)

/-- The recency list and the counters of a store, without nodes and map. -/
def Store.cache (s : Store) : Cache := ⟨s.maxSize, s.currentSize, s.lru.map Node.entry⟩

/-- `_lru` with the node of a key moved to the front. -/
def Store.touched (s : Store) (n : Node) : Store :=
  { s with lru := n :: s.lru.filter (fun m => m.key != n.key) }

theorem Store.Linked.distinct {s : Store} (h : s.Linked) : Distinct s.cache.entries := by
  have hmap : s.cache.entries.map Prod.fst = s.lru.map Node.key := by
    simp [Store.cache, Node.entry, Function.comp_def]
  unfold Distinct
  rw [hmap]
  exact h.keys_nodup

theorem Store.Linked.contents_of_mem {s : Store} (h : s.Linked) {n : Node} (hn : n ∈ s.lru) :
    s.cache.contents n.key = some n.value :=
  lookup_of_mem h.distinct (List.mem_map.mpr ⟨n, hn, rfl⟩)

theorem Store.Linked.contents_of_none {s : Store} (h : s.Linked) {k : Bytes}
    (hm : s.cacheMap k = none) : s.cache.contents k = none := by
  refine lookup_eq_none.mpr fun v hv => ?_
  obtain ⟨n, hn, he⟩ := List.mem_map.mp hv
  have hk : n.key = k := congrArg Prod.fst he
  have := (h.map_iff k n.address).mpr ⟨n, hn, hk, rfl⟩
  simp [hm] at this

theorem others_cache (s : Store) (k : Bytes) :
    others k s.cache.entries = (s.lru.filter (fun m => m.key != k)).map Node.entry := by
  simp [others, Store.cache, List.filter_map, Node.entry, Function.comp_def]

/-- In a valid store a map iterator leads to the one node with that key. -/
theorem Store.Linked.locate {s : Store} (h : s.Linked) {k : Bytes} {a : Nat}
    (hm : s.cacheMap k = some a) :
    ∃ n ∈ s.lru, n.key = k ∧ s.deref a = some n ∧ s.spliceFront a = some (s.touched n) ∧
      s.lru.filter (fun m => m.address ≠ a) = s.lru.filter (fun m => m.key != k) := by
  obtain ⟨n, hn, hk, ha⟩ := (h.map_iff k a).mp hm
  have hsame : ∀ m ∈ s.lru, m.address = a ↔ m.key = k := by
    intro m hmem
    constructor
    · intro hma
      have hmn := List.inj_on_of_nodup_map h.addresses_nodup hmem hn (hma.trans ha.symm)
      rw [hmn, hk]
    · intro hmk
      have hmap := (h.map_iff k m.address).mpr ⟨m, hmem, hmk, rfl⟩
      exact Option.some.inj (hmap.symm.trans hm)
  have hfilter : s.lru.filter (fun m => m.address ≠ a) = s.lru.filter (fun m => m.key != k) :=
    List.filter_congr fun m hmem => by
      rw [Bool.eq_iff_iff]
      simp [hsame m hmem]
  have hderef : s.deref a = some n := by
    obtain ⟨m, hfind⟩ := Option.isSome_iff_exists.mp
      (List.find?_isSome (p := fun m : Node => decide (m.address = a)).mpr ⟨n, hn, by simpa using ha⟩)
    have hma : m.address = a := by simpa using List.find?_some hfind
    have hmn := List.inj_on_of_nodup_map h.addresses_nodup (List.mem_of_find?_eq_some hfind) hn
      (hma.trans ha.symm)
    rw [← hmn]
    exact hfind
  refine ⟨n, hn, hk, hderef, ?_, hfilter⟩
  rw [Store.touched, hk, ← hfilter, Store.spliceFront, hderef]
  rfl

/-- The map leads to every node of the list, and splicing moves it to the front. -/
theorem Store.Linked.located {s : Store} (h : s.Linked) {n : Node} (hn : n ∈ s.lru) :
    s.cacheMap n.key = some n.address ∧ s.deref n.address = some n ∧
      s.spliceFront n.address = some (s.touched n) := by
  have hm := (h.map_iff n.key n.address).mpr ⟨n, hn, rfl, rfl⟩
  obtain ⟨n', hn', hk, hderef, hsplice, _⟩ := h.locate hm
  have he : n' = n := List.inj_on_of_nodup_map h.keys_nodup hn' hn hk
  subst he
  exact ⟨hm, hderef, hsplice⟩

theorem Store.Linked.touched_perm {s : Store} (h : s.Linked) {n : Node} (hn : n ∈ s.lru) :
    s.lru.Perm (s.touched n).lru := by
  have hnodup : s.lru.Nodup := List.Nodup.of_map _ h.keys_nodup
  have herase : s.lru.erase n = s.lru.filter (fun m => m.key != n.key) := by
    rw [hnodup.erase_eq_filter]
    refine List.filter_congr fun m hm => ?_
    have hiff : m = n ↔ m.key = n.key :=
      ⟨fun e => by rw [e], fun e => List.inj_on_of_nodup_map h.keys_nodup hm hn e⟩
    rw [Bool.eq_iff_iff]
    simp [hiff]
  rw [Store.touched, ← herase]
  exact List.perm_cons_erase hn

theorem Store.Linked.touched {s : Store} (h : s.Linked) {n : Node} (hn : n ∈ s.lru) :
    (s.touched n).Linked := by
  have hp := h.touched_perm hn
  refine ⟨(hp.map _).nodup_iff.mp h.keys_nodup, (hp.map _).nodup_iff.mp h.addresses_nodup, ?_,
    fun m hm => h.allocated m (hp.mem_iff.mpr hm)⟩
  intro k a
  rw [show (s.touched n).cacheMap = s.cacheMap from rfl, h.map_iff]
  exact exists_congr fun m => and_congr_left fun _ => hp.mem_iff

theorem Store.Valid.touched {s : Store} (h : s.Valid) {n : Node} (hn : n ∈ s.lru) :
    (s.touched n).Valid :=
  (h.linked.touched hn).valid h.limit_nonneg
    fun m hm => h.fits m ((h.linked.touched_perm hn).mem_iff.mpr hm)

theorem Store.Linked.assign {s : Store} (h : s.Linked) {n : Node} {rest : List Node} (v : Bytes)
    (c : Int32) (hl : s.lru = n :: rest) :
    Store.Linked { s with lru := { n with value := v } :: rest, currentSize := c } where
  keys_nodup := by simpa [hl] using h.keys_nodup
  addresses_nodup := by simpa [hl] using h.addresses_nodup
  map_iff k a := by
    have hm := h.map_iff k a
    rw [hl] at hm
    simpa using hm
  allocated m hm := by
    rcases List.mem_cons.mp hm with rfl | hm
    · exact h.allocated n (by simp [hl])
    · exact h.allocated m (by simp [hl, hm])

theorem Store.Valid.assign {s : Store} (h : s.Valid) {n : Node} {rest : List Node} {v : Bytes}
    (c : Int32) (hl : s.lru = n :: rest) (hv : (entrySize (n.key, v) : Int) ≤ s.maxSize.toInt) :
    Store.Valid { s with lru := { n with value := v } :: rest, currentSize := c } := by
  refine (h.linked.assign v c hl).valid h.limit_nonneg fun m hm => ?_
  rcases List.mem_cons.mp hm with rfl | hm
  · exact hv
  · exact h.fits m (by simp [hl, hm])

theorem Store.Linked.pushFront {s : Store} (h : s.Linked) {k : Bytes} (v : Bytes)
    (hk : s.cacheMap k = none) : (s.pushFront k v).Linked := by
  have hkeys : ∀ n ∈ s.lru, n.key ≠ k := by
    intro n hn he
    have := (h.map_iff k n.address).mpr ⟨n, hn, he, rfl⟩
    simp [hk] at this
  have haddr : ∀ n ∈ s.lru, n.address ≠ s.nextAddress := fun n hn => by
    have := h.allocated n hn
    omega
  refine ⟨?_, ?_, ?_, ?_⟩
  · simpa [Store.pushFront, h.keys_nodup] using hkeys
  · simpa [Store.pushFront, h.addresses_nodup] using haddr
  · intro key a
    by_cases he : key = k
    · subst he
      simp only [Store.pushFront, Function.update_self, Option.some.injEq, List.exists_mem_cons_iff,
        true_and]
      constructor
      · exact fun ha => Or.inl ha
      · rintro (ha | ⟨n, hn, hkey, _⟩)
        · exact ha
        · exact absurd hkey (hkeys n hn)
    · simp [Store.pushFront, he, h.map_iff, Ne.symm he]
  · intro n hn
    rcases List.mem_cons.mp hn with rfl | hn
    · exact Nat.lt_succ_self _
    · exact Nat.lt_succ_of_lt (h.allocated n hn)

theorem Store.Valid.pushFront {s : Store} (h : s.Valid) {k v : Bytes}
    (hk : s.cacheMap k = none) (hv : (entrySize (k, v) : Int) ≤ s.maxSize.toInt) :
    (s.pushFront k v).Valid := by
  refine (h.linked.pushFront v hk).valid h.limit_nonneg fun n hn => ?_
  rcases List.mem_cons.mp hn with rfl | hn
  · exact hv
  · exact h.fits n hn

/-- The state after an overwrite that keeps the nodes `kept` besides `n`. -/
def Store.overwritten (s : Store) (n : Node) (v : Bytes) (kept : List Node) (change : Int32) :
    Store :=
  { (s.touched n).keep (n :: kept) with
    lru := { n with value := v } :: kept
    currentSize := ((s.touched n).keep (n :: kept)).currentSize + change }

/-- `FreeSpace` after a splice: either the other nodes make room, or the
spliced node is evicted too and the list is empty, or it has no result. -/
theorem Store.Valid.freeSpace_touched {s : Store} (h : s.Valid) {n : Node} (hn : n ∈ s.lru)
    (x : Int32) :
    (s.touched n).freeSpace x =
      match shed Node.size (s.cache.excess x) (s.lru.filter (fun m => m.key != n.key)) with
      | some kept => some ((s.touched n).keep (n :: kept))
      | none =>
        if s.cache.excess x ≤ weight Node.size (s.touched n).lru
        then some ((s.touched n).keep []) else none := by
  rw [Store.freeSpace_eq x (h.touched hn).fits]
  change Option.map _ (shed Node.size (s.cache.excess x) (n :: s.lru.filter _)) = _
  rw [shed]
  cases shed Node.size (s.cache.excess x) (s.lru.filter (fun m => m.key != n.key)) with
  | some kept => rfl
  | none => split <;> simp_all [Store.touched]

theorem Node.growth (n : Node) (v : Bytes) :
    ((n.key.length + v.length : Nat) : Int) - n.size = v.length - n.value.length := by
  simp only [Node.size]
  omega

theorem Store.Valid.put_overwrite {s : Store} (h : s.Valid) {n : Node} (hn : n ∈ s.lru)
    (v : Bytes) (hv : entrySize (n.key, v) ≤ sizeT s.maxSize) :
    s.put n.key v =
      (shed Node.size (s.cache.excess (narrow (v.length - n.value.length)))
        (s.lru.filter (fun m => m.key != n.key))).map
        fun kept => (s.overwritten n v kept 0, true) := by
  obtain ⟨hm, hderef, hsplice⟩ := h.linked.located hn
  have hx := n.growth v
  have hnot : ¬ n.key.length + v.length > sizeT s.maxSize := Nat.not_lt.mpr hv
  simp only [Store.put, if_neg hnot, hm, hderef, hsplice, Option.bind_eq_bind, Option.bind_some, hx,
    h.freeSpace_touched hn]
  cases shed Node.size (s.cache.excess (narrow (v.length - n.value.length)))
      (s.lru.filter (fun m => m.key != n.key)) with
  | some kept => simp [Store.assignFront, Store.keep, Store.overwritten]
  | none =>
    dsimp only
    split
    next => simp [Store.assignFront, Store.keep]
    next => rfl

theorem Store.Valid.keep_touched {s : Store} (h : s.Valid) {n : Node} (hn : n ∈ s.lru)
    {kept : List Node} (hk : kept <+: s.lru.filter (fun m => m.key != n.key)) :
    ((s.touched n).keep (n :: kept)).Valid :=
  (h.touched hn).keep (List.cons_prefix_cons.mpr ⟨rfl, hk⟩)

theorem Store.Valid.set_overwrite {s : Store} (h : s.Valid) {n : Node} (hn : n ∈ s.lru)
    (v : Bytes) (hv : entrySize (n.key, v) ≤ sizeT s.maxSize) :
    s.set n.key v =
      (shed Node.size (s.cache.excess (narrow (v.length - n.value.length)))
        (s.lru.filter (fun m => m.key != n.key))).map
        fun kept => (s.overwritten n v kept (narrow (entrySize (n.key, v) - n.value.length)), true) := by
  obtain ⟨hm, hderef, hsplice⟩ := h.linked.located hn
  have hx := n.growth v
  have hnot : ¬ n.key.length + v.length > sizeT s.maxSize := Nat.not_lt.mpr hv
  simp only [Store.set, if_neg hnot, hm, hderef, hsplice, Option.bind_eq_bind, Option.bind_some, hx,
    h.freeSpace_touched hn]
  cases hs : shed Node.size (s.cache.excess (narrow (v.length - n.value.length)))
      (s.lru.filter (fun m => m.key != n.key)) with
  | some kept =>
    have hvalid := h.keep_touched hn (shed_isPrefix hs)
    have hm' : ((s.touched n).keep (n :: kept)).cacheMap n.key = some n.address :=
      (hvalid.map_iff _ _).mpr ⟨n, by simp [Store.keep], rfl, rfl⟩
    have hderef' : ((s.touched n).keep (n :: kept)).deref n.address = some n := by
      simp [Store.deref, Store.keep]
    have hchange : ∀ c : Int32, c - narrow n.value.length
        + narrow ((n.key.length + v.length : Nat) : Int) =
        c + narrow ((entrySize (n.key, v) : Nat) - n.value.length) := by
      intro c
      rw [narrow_sub, entrySize]
      grind
    simp only [hm', hderef', Option.bind_some]
    simp only [Store.assignFront, Store.keep, Store.overwritten, Option.bind_some, Option.map_some,
      Option.pure_def, hchange]
  | none =>
    dsimp only
    split
    next => simp [Store.keep, Store.touched]
    next => rfl

theorem Store.Linked.filter_absent {s : Store} (h : s.Linked) {k : Bytes}
    (hm : s.cacheMap k = none) : s.lru.filter (fun m => m.key != k) = s.lru := by
  refine List.filter_eq_self.mpr fun n hn => ?_
  have hne : n.key ≠ k := fun he => by
    have := (h.map_iff k n.address).mpr ⟨n, hn, he, rfl⟩
    simp [hm] at this
  simpa using hne

theorem Store.Valid.admits_iff {s : Store} (h : s.Valid) {k v : Bytes} :
    s.cache.Admits k v ↔ entrySize (k, v) ≤ sizeT s.maxSize := by
  have := sizeT_of_nonneg h.limit_nonneg
  simp only [Cache.Admits, Store.cache]
  omega

theorem Store.Valid.insert {s : Store} (h : s.Valid) {k v : Bytes} (hm : s.cacheMap k = none)
    (hv : s.cache.Admits k v) {kept : List Node} (hk : kept <+: s.lru) :
    ((s.keep kept).pushFront k v).Valid ∧
      ((s.keep kept).pushFront k v).cache =
        s.cache.rewritten k v (narrow (entrySize (k, v))) (kept.map Node.entry) := by
  have habsent : (s.keep kept).cacheMap k = none := by simp [Store.keep, hm]
  refine ⟨(h.keep hk).pushFront habsent hv, ?_⟩
  have ho : others k s.cache.entries = s.lru.map Node.entry := by
    rw [others_cache, h.linked.filter_absent hm]
  simp only [Cache.rewritten, ho, weight_map]
  rfl

theorem Store.Valid.overwritten {s : Store} (h : s.Valid) {n : Node} (hn : n ∈ s.lru) {v : Bytes}
    (hv : s.cache.Admits n.key v) {kept : List Node}
    (hk : kept <+: s.lru.filter (fun m => m.key != n.key)) (change : Int32) :
    (s.overwritten n v kept change).Valid ∧
      (s.overwritten n v kept change).cache =
        s.cache.rewritten n.key v change (kept.map Node.entry) := by
  refine ⟨(h.keep_touched hn hk).assign _ rfl hv, ?_⟩
  have hw : ((weight Node.size (s.touched n).lru : Nat) : Int) - weight Node.size (n :: kept) =
      weight Node.size (s.lru.filter (fun m => m.key != n.key)) - weight Node.size kept := by
    simp only [Store.touched, weight_cons]
    omega
  simp only [Cache.rewritten, others_cache, weight_map]
  simp only [Store.overwritten, Store.keep, hw, Store.cache, List.map_cons]
  rfl

theorem Store.Linked.present_cases {s : Store} (h : s.Linked) (k : Bytes) :
    (s.cacheMap k = none ∧ s.cache.contents k = none) ∨
      ∃ n ∈ s.lru, n.key = k ∧ s.cacheMap k = some n.address ∧ s.cache.contents k = some n.value := by
  cases hm : s.cacheMap k with
  | none => exact Or.inl ⟨rfl, h.contents_of_none hm⟩
  | some a =>
    obtain ⟨n, hn, hk, ha⟩ := (h.map_iff k a).mp hm
    exact Or.inr ⟨n, hn, hk, by rw [ha], hk ▸ h.contents_of_mem hn⟩

theorem Store.Valid.insert_step {s : Store} (h : s.Valid) {k v : Bytes}
    (hm : s.cacheMap k = none) (hv : s.cache.Admits k v) :
    s.put k v = (shed Node.size (s.cache.excess (narrow (entrySize (k, v)))) s.lru).map
        (fun kept => ((s.keep kept).pushFront k v, true)) ∧
      s.putIfAbsent k v = s.put k v := by
  have hnot : ¬ k.length + v.length > sizeT s.maxSize := by
    simpa [entrySize] using h.admits_iff.mp hv
  constructor
  · simp only [Store.put, if_neg hnot, hm]
    rw [Store.freeSpace_eq _ h.fits]
    change (Option.map s.keep (shed Node.size (s.cache.excess (narrow (entrySize (k, v)))) s.lru)).bind _ = _
    cases shed Node.size (s.cache.excess (narrow (entrySize (k, v)))) s.lru <;> rfl
  · simp only [Store.put, Store.putIfAbsent, if_neg hnot, hm]

/-- A call that writes, on nodes: the other entries make room, and what is kept
determines the new state. -/
theorem Store.Valid.step_write {s : Store} (h : s.Valid) {op : Op} {extra change : Int32}
    (hr : s.cache.request op = some (extra, change)) :
    ∃ after : List Node → Store,
      s.step op = (shed Node.size (s.cache.excess extra)
        (s.lru.filter (fun m => m.key != op.key))).map (fun kept => (after kept, .status true)) ∧
      ∀ kept, kept <+: s.lru.filter (fun m => m.key != op.key) → (after kept).Valid ∧
        (after kept).cache = s.cache.rewritten op.key op.value change (kept.map Node.entry) := by
  cases op with
  | put k v =>
    simp only [Cache.request] at hr
    split at hr
    next hv =>
      rcases h.linked.present_cases k with ⟨hm, hc⟩ | ⟨n, hn, rfl, hm, hc⟩
      · rw [hc] at hr
        cases hr
        refine ⟨fun kept => (s.keep kept).pushFront k v, ?_, fun kept hk => ?_⟩
        · simp only [Store.step, (h.insert_step hm hv).1, Op.key, h.linked.filter_absent hm]
          rw [Option.map_map]
          rfl
        · exact h.insert hm hv (h.linked.filter_absent hm ▸ hk)
      · rw [hc] at hr
        cases hr
        refine ⟨fun kept => s.overwritten n v kept 0, ?_, fun kept hk => h.overwritten hn hv hk 0⟩
        simp only [Store.step, h.put_overwrite hn v (h.admits_iff.mp hv), Op.key]
        rw [Option.map_map]
        rfl
    next => simp at hr
  | putIfAbsent k v =>
    simp only [Cache.request] at hr
    split at hr
    next hv =>
      rcases h.linked.present_cases k with ⟨hm, hc⟩ | ⟨n, hn, rfl, hm, hc⟩
      · rw [hc] at hr
        cases hr
        refine ⟨fun kept => (s.keep kept).pushFront k v, ?_, fun kept hk => ?_⟩
        · simp only [Store.step, (h.insert_step hm hv).2, (h.insert_step hm hv).1, Op.key,
            h.linked.filter_absent hm]
          rw [Option.map_map]
          rfl
        · exact h.insert hm hv (h.linked.filter_absent hm ▸ hk)
      · simp [hc] at hr
    next => simp at hr
  | set k v =>
    simp only [Cache.request] at hr
    split at hr
    next hv =>
      rcases h.linked.present_cases k with ⟨hm, hc⟩ | ⟨n, hn, rfl, hm, hc⟩
      · simp [hc] at hr
      · rw [hc] at hr
        cases hr
        refine ⟨fun kept => s.overwritten n v kept _, ?_, fun kept hk => h.overwritten hn hv hk _⟩
        simp only [Store.step, h.set_overwrite hn v (h.admits_iff.mp hv), Op.key]
        rw [Option.map_map]
        rfl
    next => simp at hr
  | delete k => simp [Cache.request] at hr
  | get k => simp [Cache.request] at hr

theorem Store.Valid.refused {s : Store} (h : s.Valid) {k v : Bytes} (hv : ¬ s.cache.Admits k v) :
    s.put k v = some (s, false) ∧ s.putIfAbsent k v = some (s, false) ∧
      s.set k v = some (s, false) := by
  have hbig : k.length + v.length > sizeT s.maxSize := by
    have := mt h.admits_iff.mpr hv
    simpa [entrySize] using this
  simp [Store.put, Store.putIfAbsent, Store.set, hbig]

theorem Store.Linked.deleteMisses_iff {s : Store} (h : s.Linked) (op : Op) :
    s.cache.DeleteMisses op ↔ s.DeleteMisses op := by
  cases op with
  | delete k =>
    rcases h.present_cases k with ⟨hm, hc⟩ | ⟨n, _, _, hm, hc⟩
    · exact iff_of_true hc hm
    · simp [Cache.DeleteMisses, Store.DeleteMisses, hm, hc]
  | _ => exact Iff.rfl

theorem Store.step_delete_hit {s : Store} {op : Op} (h : ¬ s.DeleteMisses op) : s.step op = none := by
  cases op with
  | delete k =>
    obtain ⟨it, hm⟩ := Option.ne_none_iff_exists'.mp h
    simp [Store.step, Store.delete, hm]
  | _ => exact absurd trivial h

theorem Store.Valid.step_settle {s : Store} (h : s.Valid) {op : Op}
    (hr : s.cache.request op = none) (hmiss : s.DeleteMisses op) :
    ∃ t, s.step op = some (t, (s.cache.settle op).2) ∧ t.Valid ∧ t.cache = (s.cache.settle op).1 := by
  cases op with
  | put k v =>
    refine ⟨s, ?_, h, rfl⟩
    have hv : ¬ s.cache.Admits k v := by
      intro hv
      cases hc : s.cache.contents k <;> simp [Cache.request, hv, hc] at hr
    simp [Store.step, (h.refused hv).1, Cache.settle]
  | putIfAbsent k v =>
    refine ⟨s, ?_, h, rfl⟩
    by_cases hv : s.cache.Admits k v
    · rcases h.linked.present_cases k with ⟨_, hc⟩ | ⟨n, _, _, hm, _⟩
      · simp [Cache.request, hv, hc] at hr
      · simp [Store.step, Store.putIfAbsent, hm, Cache.settle]
    · simp [Store.step, (h.refused hv).2.1, Cache.settle]
  | set k v =>
    refine ⟨s, ?_, h, rfl⟩
    by_cases hv : s.cache.Admits k v
    · rcases h.linked.present_cases k with ⟨hm, _⟩ | ⟨n, _, _, _, hc⟩
      · simp [Store.step, Store.set, hm, Cache.settle]
      · simp [Cache.request, hv, hc] at hr
    · simp [Store.step, (h.refused hv).2.2, Cache.settle]
  | delete k =>
    have hm : s.cacheMap k = none := hmiss
    exact ⟨s, by simp [Store.step, Store.delete, hm, Cache.settle], h, rfl⟩
  | get k =>
    rcases h.linked.present_cases k with ⟨hm, hc⟩ | ⟨n, hn, rfl, hm, hc⟩
    · exact ⟨s, by simp [Store.step, Store.get, hm, Cache.settle, hc], h, by simp [Cache.settle, hc]⟩
    · obtain ⟨_, _, hsplice⟩ := h.linked.located hn
      refine ⟨s.touched n, ?_, h.touched hn, ?_⟩
      · simp [Store.step, Store.get, hm, hsplice, Store.touched, Cache.settle, hc]
      · simp only [Cache.settle, hc, others_cache]
        rfl

/-- The store, seen as a recency list with a counter, does what the cache does. -/
theorem Store.Valid.step_refines {s : Store} (h : s.Valid) (op : Op) :
    (s.step op).map (fun r => (r.1.cache, r.2)) = s.cache.step op := by
  cases hr : s.cache.request op with
  | none =>
    by_cases hmiss : s.DeleteMisses op
    · obtain ⟨t, hs, _, hc⟩ := h.step_settle hr hmiss
      simp [hs, hc, Cache.step, hr, (h.linked.deleteMisses_iff op).mpr hmiss]
    · simp [Store.step_delete_hit hmiss, Cache.step, hr, mt (h.linked.deleteMisses_iff op).mp hmiss]
  | some plan =>
    obtain ⟨extra, change⟩ := plan
    obtain ⟨after, hs, hafter⟩ := h.step_write hr
    simp only [Cache.step, hr, Cache.write, others_cache, shed_map, hs, Option.map_map]
    refine Option.map_congr fun kept hk => ?_
    simp [(hafter kept (shed_isPrefix hk)).2]

theorem Store.Valid.step {s t : Store} (h : s.Valid) {op : Op} {r : Reply}
    (hs : s.step op = some (t, r)) : t.Valid := by
  cases hr : s.cache.request op with
  | none =>
    by_cases hmiss : s.DeleteMisses op
    · obtain ⟨t', hs', hv, _⟩ := h.step_settle hr hmiss
      cases hs.symm.trans hs'
      exact hv
    · cases (Store.step_delete_hit hmiss).symm.trans hs
  | some plan =>
    obtain ⟨extra, change⟩ := plan
    obtain ⟨after, hs', hafter⟩ := h.step_write hr
    rw [hs'] at hs
    obtain ⟨kept, hk, he⟩ := Option.map_eq_some_iff.mp hs
    cases he
    exact (hafter kept (shed_isPrefix hk)).1

theorem Store.Reach.valid {m : Int32} (hm : 0 ≤ m) {history : List (Op × Reply)} {s : Store}
    (reach : Store.Reach m history s) : s.Valid :=
  reach.invariant (Store.fresh_valid hm) fun _ _ _ _ h hs => h.step hs

theorem Store.Valid.cache_step {s t : Store} (h : s.Valid) {op : Op} {r : Reply}
    (hs : s.step op = some (t, r)) : s.cache.step op = some (t.cache, r) := by
  rw [← h.step_refines op, hs]
  rfl

end Afina
