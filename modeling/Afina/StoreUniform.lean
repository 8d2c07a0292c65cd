import Afina.Lib.Recency
import Afina.StoreAccounting

namespace Afina

open TailShed KeyedList Recency

/-- What a call is to a cache of entries that all have this size, if it keeps to
them and to the calls that count right then. -/
def Op.access (size : Nat) : Op → Option (Access Bytes Bytes)
  | .put k v => if entrySize (k, v) = size then some (.put k v) else none
  | .putIfAbsent k v => if entrySize (k, v) = size then some (.add k v) else none
  | .get k => some (.get k)
  | _ => none

def Reply.ofAnswer : Answer Bytes → Reply
  | .status ok => .status ok
  | .value found => .value found

namespace Cache

/-- How many entries of this size the limit has room for. -/
def room (size : Nat) (c : Cache) : Nat := c.limit.toInt.toNat / size

/-- All entries have this size, and the counter is right and within the limit. -/
structure Even (size : Nat) (c : Cache) : Prop where
  sizes : ∀ e ∈ c.entries, entrySize e = size
  counts : c.Counts
  within : (c.total : Int) ≤ c.limit.toInt
  small : c.limit.toInt < 2 ^ 30

variable {size : Nat} {c : Cache}

theorem Even.others_sizes (h : c.Even size) (k : Bytes) :
    ∀ e ∈ others k c.entries, entrySize e = size :=
  fun e he => h.sizes e (mem_others.mp he).1

/-- Where the limit has room for none there is none. -/
theorem Even.entries_nil (h : c.Even size) (hsize : c.limit.toInt < size) : c.entries = [] := by
  cases hentries : c.entries with
  | nil => rfl
  | cons e rest =>
    have hfirst := h.sizes e (by rw [hentries]; exact List.mem_cons_self)
    have hwithin := h.within
    rw [Cache.total, hentries, weight_cons, hfirst] at hwithin
    omega

theorem Even.length_of_size (h : c.Even size) {k v old : Bytes} (hv : entrySize (k, v) = size)
    (hold : c.contents k = some old) : v.length = old.length := by
  have hsame := h.sizes (k, old) (mem_of_lookup hold)
  rw [← hv] at hsame
  simp only [entrySize] at hsame
  omega

/-- A write of an entry of this size leaves what the textbook cache has. -/
theorem Even.write (h : c.Even size) (hsound : c.Sound) (hpos : 0 < size) {op : Op}
    {extra change : Int32} (hr : c.request op = some (extra, change))
    (hv : entrySize (op.key, op.value) = size) :
    ∃ c', c.step op = some (c', .status true) ∧ 0 < c.room size ∧ c'.limit = c.limit ∧
      c'.entries = insert (c.room size) op.key op.value c.entries := by
  have hadm : (entrySize (op.key, op.value) : Int) ≤ c.limit.toInt := (request_cases hr).1
  have hnonneg := hsound.limit_nonneg
  have hsmall := h.small
  have hwithin := h.within
  have htotal := hsound.total_eq op.key
  have hone : size ≤ c.limit.toInt.toNat := by omega
  have hexcess : c.excess extra =
      (weight entrySize (others op.key c.entries) : Int) + size - c.limit.toInt.toNat := by
    rw [hsound.excess_of_counts h.counts hr, toInt_narrow (by omega) (by omega), hv]
    unfold Cache.rest
    omega
  have hshed := shed_uniform hpos hone (h.others_sizes op.key) (by
    unfold Cache.rest at htotal
    omega)
  rw [← hexcess] at hshed
  have hroom : 0 < c.room size := Nat.div_pos hone hpos
  refine ⟨c.rewritten op.key op.value change
    ((others op.key c.entries).take (c.limit.toInt.toNat / size - 1)), ?_, hroom, rfl, ?_⟩
  · rw [step_of_request hr, hshed]
    rfl
  · obtain ⟨n, hn⟩ := Nat.exists_eq_succ_of_ne_zero (Nat.ne_of_gt hroom)
    have hn' : c.limit.toInt.toNat / size = n + 1 := hn
    simp only [rewritten, Recency.insert, hn, hn', Nat.add_sub_cancel, List.take_succ_cons]

theorem Even.of_insert (h : c.Even size) (hsound : c.Sound) {c' : Cache} {k v : Bytes}
    (hv : entrySize (k, v) = size) (hcounts : c'.Counts) (hlimit : c'.limit = c.limit)
    (hentries : c'.entries = insert (c.room size) k v c.entries) : c'.Even size := by
  have hsizes : ∀ e ∈ c'.entries, entrySize e = size := by
    intro e he
    rw [hentries] at he
    rcases List.mem_cons.mp (List.mem_of_mem_take he) with rfl | he
    · exact hv
    · exact h.others_sizes k e he
  refine ⟨hsizes, hcounts, ?_, by rw [hlimit]; exact h.small⟩
  have hlength : c'.entries.length ≤ c.room size := by
    rw [hentries]
    exact List.length_take_le _ _
  have hmul : size * c'.entries.length ≤ c.limit.toInt.toNat :=
    (Nat.mul_le_mul_left size hlength).trans (Nat.mul_div_le _ _)
  have hnonneg := hsound.limit_nonneg
  rw [Cache.total, weight_uniform hsizes, hlimit]
  omega

theorem Even.keepsCount (h : c.Even size) {op : Op} {a : Access Bytes Bytes}
    (ha : op.access size = some a) : c.KeepsCount op := by
  have hwithin := h.within
  have hsmall := h.small
  have hcounts := h.counts
  unfold Cache.Counts at hcounts
  cases op with
  | put k v =>
    simp only [Op.access] at ha
    split at ha
    next hv =>
      intro hadm
      unfold Cache.Admits at hadm
      exact ⟨fun _ => by omega, fun old hold => h.length_of_size hv hold⟩
    next => cases ha
  | putIfAbsent k v =>
    intro hadm _
    unfold Cache.Admits at hadm
    omega
  | set k v => cases ha
  | delete k => cases ha
  | get k => trivial

/-- An entry that does not fit is refused, by this cache as by that of the textbook,
and both are empty. -/
theorem Even.refused (h : c.Even size) (hsound : c.Sound) {op : Op}
    (hop : op = .put op.key op.value ∨ op = .putIfAbsent op.key op.value)
    (hv : entrySize (op.key, op.value) = size) (hadm : ¬ c.Admits op.key op.value) :
    c.step op = some (c, .status false) ∧ c.room size = 0 ∧ c.entries = [] := by
  have hlarge : c.limit.toInt < size := by
    unfold Cache.Admits at hadm
    omega
  have hnonneg := hsound.limit_nonneg
  refine ⟨?_, Nat.div_eq_of_lt (by omega), h.entries_nil hlarge⟩
  generalize op.key = k at hop hadm
  generalize op.value = v at hop hadm
  rcases hop with rfl | rfl <;>
    simp [Cache.step, Cache.request, hadm, Cache.settle, Cache.DeleteMisses]

/-- A call that writes an entry of this size if there is room for one. -/
theorem Even.insertion (h : c.Even size) (hsound : c.Sound) (hpos : 0 < size) {op : Op}
    (hcounts : ∀ c' r, c.step op = some (c', r) → c'.Counts) {k v : Bytes}
    (hop : op = .put k v ∨ (op = .putIfAbsent k v ∧ c.contents k = none))
    (hv : entrySize (k, v) = size) :
    ∃ c', c.step op = some (c', .status (decide (0 < c.room size))) ∧
      c'.entries = insert (c.room size) k v c.entries ∧ c'.limit = c.limit ∧ c'.Even size := by
  obtain ⟨rfl, rfl⟩ : op.key = k ∧ op.value = v := by
    rcases hop with rfl | ⟨rfl, _⟩ <;> exact ⟨rfl, rfl⟩
  by_cases hadm : c.Admits op.key op.value
  · obtain ⟨extra, change, hr⟩ : ∃ extra change, c.request op = some (extra, change) := by
      generalize op.key = k at *
      generalize op.value = v at *
      rcases hop with rfl | ⟨rfl, hnone⟩
      · cases hc : c.contents k <;> simp [Cache.request, hadm, hc]
      · simp [Cache.request, hadm, hnone]
    obtain ⟨c', hs, hroom, hlimit, hentries⟩ := h.write hsound hpos hr hv
    refine ⟨c', by simpa [hroom] using hs, hentries, hlimit, ?_⟩
    exact h.of_insert hsound hv (hcounts c' _ hs) hlimit hentries
  · obtain ⟨hs, hroom, hentries⟩ := h.refused hsound (hop.imp_right And.left) hv hadm
    refine ⟨c, by simpa [hroom] using hs, ?_, rfl, h⟩
    rw [hroom, hentries]
    rfl

/-- One call does what the access does on the textbook cache. -/
theorem Even.step (h : c.Even size) (hsound : c.Sound) (hpos : 0 < size) {op : Op}
    {a : Access Bytes Bytes} (ha : op.access size = some a) :
    ∃ c', c.step op = some (c', .ofAnswer (Recency.step (c.room size) c.entries a).2) ∧
      c'.entries = (Recency.step (c.room size) c.entries a).1 ∧ c'.limit = c.limit ∧
      c'.Even size := by
  have hcounts := Cache.step_forall_of_exists
    ((hsound.keepsCount_iff h.counts op).mpr (h.keepsCount ha))
  cases op with
  | put k v =>
    simp only [Op.access] at ha
    split at ha
    next hv =>
      cases Option.some.inj ha
      exact h.insertion hsound hpos hcounts (Or.inl rfl) hv
    next => cases ha
  | putIfAbsent k v =>
    simp only [Op.access] at ha
    split at ha
    next hv =>
      cases Option.some.inj ha
      cases hc : c.contents k with
      | none =>
        have hlookup : c.entries.lookup k = none := hc
        simp only [Recency.step, hlookup]
        exact h.insertion hsound hpos hcounts (Or.inr ⟨rfl, hc⟩) hv
      | some old =>
        have hlookup : c.entries.lookup k = some old := hc
        refine ⟨c, ?_, by simp only [Recency.step, hlookup], rfl, h⟩
        simp [Cache.step, Cache.request, Cache.settle, Cache.DeleteMisses, hc, Recency.step, hlookup,
          Reply.ofAnswer]
    next => cases ha
  | set k v => cases ha
  | delete k => cases ha
  | get k =>
    cases Option.some.inj ha
    cases hc : c.contents k with
    | none =>
      have hlookup : c.entries.lookup k = none := hc
      refine ⟨c, ?_, by simp only [Recency.step, hlookup], rfl, h⟩
      simp [Cache.step, Cache.request, Cache.settle, Cache.DeleteMisses, hc, Recency.step, hlookup,
        Reply.ofAnswer]
    | some v =>
      have hlookup : c.entries.lookup k = some v := hc
      have hs : c.step (.get k) =
          some ({ c with entries := (k, v) :: others k c.entries }, .value (some v)) := by
        simp [Cache.step, Cache.request, Cache.settle, Cache.DeleteMisses, hc]
      refine ⟨{ c with entries := (k, v) :: others k c.entries },
        by simpa only [Recency.step, hlookup, Reply.ofAnswer] using hs, by simp only [Recency.step, hlookup], rfl,
        ?_, hcounts _ _ hs, ?_, h.small⟩
      · intro e he
        rcases List.mem_cons.mp he with rfl | he
        · exact h.sizes _ (mem_of_lookup hc)
        · exact h.others_sizes k e he
      · have hsame := weight_others (w := entrySize) hsound.distinct hlookup
        have hwithin := h.within
        simp only [Cache.total, weight_cons] at hwithin ⊢
        omega

end Cache

/-- A whole run does what the accesses do on the textbook cache. -/
theorem Store.Valid.uniform_run {s : Store} (hvalid : s.Valid) {size : Nat} (hpos : 0 < size)
    (heven : s.cache.Even size) {ops : List Op} {accesses : List (Access Bytes Bytes)}
    (hall : ops.map (Op.access size) = accesses.map some) :
    ∃ t history, PartialRun.run Store.step s ops = some (t, history) ∧
      t.cache.entries = (Recency.run (s.cache.room size) s.cache.entries accesses).1 ∧
      history.map Prod.snd =
        (Recency.run (s.cache.room size) s.cache.entries accesses).2.map Reply.ofAnswer := by
  induction ops generalizing s accesses with
  | nil =>
    cases List.map_eq_nil_iff.mp hall.symm
    exact ⟨s, [], rfl, rfl, rfl⟩
  | cons op ops ih =>
    obtain ⟨a, rest, rfl, ha, hrest⟩ := List.map_eq_cons_iff.mp hall.symm
    obtain ⟨c, hc, hentries, hlimit, hnext⟩ := heven.step hvalid.sound hpos ha.symm
    rw [← hvalid.step_refines op] at hc
    obtain ⟨⟨t, r⟩, hs, he⟩ := Option.map_eq_some_iff.mp hc
    obtain ⟨rfl, hr⟩ := Prod.mk.inj he
    have hroom : t.cache.room size = s.cache.room size := by
      unfold Cache.room
      rw [hlimit]
    obtain ⟨last, history, hrun, hlast, hreplies⟩ := ih (hvalid.step hs) hnext hrest.symm
    rw [hroom, hentries] at hlast hreplies
    refine ⟨last, (op, r) :: history, PartialRun.run_cons hs hrun, hlast, ?_⟩
    rw [List.map_cons, hreplies]
    simp only [Recency.run, List.map_cons]
    rw [← hr]

theorem Store.fresh_even {m : Int32} (hm : 0 ≤ m) (small : m.toInt < 2 ^ 30) (size : Nat) :
    (Store.fresh m).cache.Even size :=
  ⟨by simp [Store.cache, Store.fresh], rfl, (Store.fresh_valid hm).limit_nonneg, small⟩

theorem Op.not_add {size : Nat} {ops : List Op} {accesses : List (Access Bytes Bytes)}
    (hall : ops.map (Op.access size) = accesses.map some)
    (hno : ∀ op ∈ ops, ∀ k v, op ≠ .putIfAbsent k v) : ∀ a ∈ accesses, ∀ k v, a ≠ .add k v := by
  rintro a hmem k v rfl
  have hsome : some (Access.add k v) ∈ ops.map (Op.access size) := by
    rw [hall]
    exact List.mem_map_of_mem hmem
  obtain ⟨op, hop, haccess⟩ := List.mem_map.mp hsome
  cases op with
  | put k' v' =>
    simp only [Op.access] at haccess
    split at haccess <;> cases haccess
  | putIfAbsent k' v' => exact hno _ hop k' v' rfl
  | set k' v' => cases haccess
  | delete k' => cases haccess
  | get k' => cases haccess

/-- Where a history has the replies of some answers, a hit in it is a hit there. -/
theorem hit_iff {ops : List Op} {history : List (Op × Reply)} {answers : List (Answer Bytes)}
    (hops : history.map Prod.fst = ops) (hreplies : history.map Prod.snd = answers.map .ofAnswer)
    (i : Nat) (op : Op) (v : Bytes) :
    history[i]? = some (op, .value (some v)) ↔
      ops[i]? = some op ∧ answers[i]? = some (.value (some v)) := by
  have hreply := congrArg (·[i]?) hreplies
  simp only [List.getElem?_map] at hreply
  rw [← hops, List.getElem?_map]
  cases hh : history[i]? with
  | none => simp
  | some e =>
    obtain ⟨op', r⟩ := e
    rw [hh, Option.map_some] at hreply
    obtain ⟨answer, hanswer, hr⟩ := Option.map_eq_some_iff.mp hreply.symm
    rw [hanswer]
    subst hr
    cases answer <;> simp [Reply.ofAnswer]

/-- A storage with a larger limit has, over every run of calls `Put` and `Get` whose
entries all have one size, every hit that the smaller one has, with the same value,
and holds all that it holds. -/
theorem larger_limit_keeps_hits {m m' : Int32} (hm : 0 ≤ m) (hle : m.toInt ≤ m'.toInt)
    (small : m'.toInt < 2 ^ 30) {size : Nat} (hpos : 0 < size) {ops : List Op}
    {accesses : List (Access Bytes Bytes)}
    (uniform : ops.map (Op.access size) = accesses.map some)
    (noAdd : ∀ op ∈ ops, ∀ k v, op ≠ .putIfAbsent k v) :
    ∃ s s' history history', PartialRun.run Store.step (Store.fresh m) ops = some (s, history) ∧
      PartialRun.run Store.step (Store.fresh m') ops = some (s', history') ∧
      (s.lru.map Node.entry).Sublist (s'.lru.map Node.entry) ∧
      ∀ (i : Nat) k v, history[i]? = some (.get k, .value (some v)) →
        history'[i]? = some (.get k, .value (some v)) := by
  have hrooms : m.toInt.toNat / size ≤ m'.toInt.toNat / size :=
    Nat.div_le_div_right (Int.toNat_le_toNat hle)
  have hm' : 0 ≤ m' := by
    rw [Int32.le_iff_toInt_le] at hm ⊢
    omega
  obtain ⟨s, history, hrun, hheld, hreplies⟩ := (Store.fresh_valid hm).uniform_run hpos
    (Store.fresh_even hm (by omega) size) uniform
  obtain ⟨s', history', hrun', hheld', hreplies'⟩ := (Store.fresh_valid hm').uniform_run hpos
    (Store.fresh_even hm' small size) uniform
  obtain ⟨hcovers, hhits⟩ := (covers_nil (K := Bytes) (V := Bytes) hrooms).run
    (Op.not_add uniform noAdd)
  refine ⟨s, s', history, history', hrun, hrun', ?_, fun i k v hi => ?_⟩
  · change s.cache.entries.Sublist s'.cache.entries
    rw [hheld, hheld']
    exact hcovers.part
  · obtain ⟨hop, hanswer⟩ := (hit_iff (PartialRun.run_calls hrun) hreplies i _ v).mp hi
    exact (hit_iff (PartialRun.run_calls hrun') hreplies' i _ v).mpr ⟨hop, hhits i v hanswer⟩

/-- The larger storage has a hit more. -/
theorem larger_limit_keeps_hits_two :
    let ops : List Op := [.put (text "a") (text "12"), .put (text "b") (text "34"),
      .get (text "b"), .get (text "a")]
    ∃ s s' history history', PartialRun.run Store.step (Store.fresh 4) ops = some (s, history) ∧
      PartialRun.run Store.step (Store.fresh 8) ops = some (s', history') ∧
      (s.lru.map Node.entry).Sublist (s'.lru.map Node.entry) ∧
      ∀ (i : Nat) k v, history[i]? = some (.get k, .value (some v)) →
        history'[i]? = some (.get k, .value (some v)) := by
  intro ops
  have huniform : ops.map (Op.access 3) = [Access.put (text "a") (text "12"),
      .put (text "b") (text "34"), .get (text "b"), .get (text "a")].map some := by decide
  have hno : ∀ op ∈ ops, ∀ k v, op ≠ .putIfAbsent k v := by simp [ops]
  exact larger_limit_keeps_hits (by decide) (by decide) (by decide) (by decide) huniform hno

end Afina
