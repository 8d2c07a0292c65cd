import Afina.CacheSteps

namespace Afina

open TailShed KeyedList

/-- One call on the unbounded reference map, which refuses only a write whose
entry is larger than the limit. -/
def refStep (m : Int32) (r : List (Bytes × Bytes)) : Op → Option (List (Bytes × Bytes) × Reply)
  | .put k v =>
    if (entrySize (k, v) : Int) ≤ m.toInt then some ((k, v) :: others k r, .status true)
    else some (r, .status false)
  | .putIfAbsent k v =>
    if (entrySize (k, v) : Int) ≤ m.toInt ∧ r.lookup k = none then some ((k, v) :: r, .status true)
    else some (r, .status false)
  | .set k v =>
    if (entrySize (k, v) : Int) ≤ m.toInt ∧ (r.lookup k).isSome then
      some ((k, v) :: others k r, .status true)
    else some (r, .status false)
  | .delete k =>
    if (r.lookup k).isSome then some (others k r, .status true) else some (r, .status false)
  | .get k => some (r, .value (r.lookup k))

/-- After every prefix of the calls the reference map holds at most the limit. -/
def ReferenceFits (m : Int32) (calls : List Op) : Prop :=
  ∀ history r, PartialRun.Reach (refStep m) [] history r → history.map Prod.fst <+: calls →
    (weight entrySize r : Int) ≤ m.toInt

/-- After every prefix of the calls the store and the reference map have given
the same replies and hold the same associations. -/
def NothingLost (m : Int32) (calls : List Op) : Prop :=
  ∀ pre, pre <+: calls → ∃ s r history,
    PartialRun.run Store.step (Store.fresh m) pre = some (s, history) ∧
      PartialRun.run (refStep m) [] pre = some (r, history) ∧
      ∀ k, s.cache.contents k = r.lookup k

/-- The counter with the requested growth, as an `int`, is within the limit: the
loop of `FreeSpace` is not entered. -/
def Cache.NoEviction (c : Cache) (op : Op) : Prop := ∀ plan ∈ c.request op, c.excess plan.1 ≤ 0

instance (c : Cache) (op : Op) : Decidable (c.NoEviction op) :=
  show Decidable (∀ plan ∈ c.request op, c.excess plan.1 ≤ 0) from Option.decidableForallMem _

theorem refStep_lookup_of_ne {m : Int32} {r r' : List (Bytes × Bytes)} {op : Op} {reply : Reply}
    (hs : refStep m r op = some (r', reply)) {k : Bytes} (hne : k ≠ op.key) :
    r'.lookup k = r.lookup k := by
  have hwritten : ∀ v l, l.lookup k = r.lookup k → ((op.key, v) :: l).lookup k = r.lookup k :=
    fun v l hl => (lookup_cons_of_ne hne v l).trans hl
  have hothers : (others op.key r).lookup k = r.lookup k := lookup_others_of_ne hne r
  cases op with
  | put key v =>
    simp only [refStep] at hs
    split at hs <;> cases hs
    · exact hwritten v _ hothers
    · rfl
  | putIfAbsent key v =>
    simp only [refStep] at hs
    split at hs <;> cases hs
    · exact hwritten v _ rfl
    · rfl
  | set key v =>
    simp only [refStep] at hs
    split at hs <;> cases hs
    · exact hwritten v _ hothers
    · rfl
  | delete key =>
    simp only [refStep] at hs
    split at hs <;> cases hs
    · exact hothers
    · rfl
  | get key => cases hs; rfl

theorem refStep_of_request {c : Cache} {r : List (Bytes × Bytes)} {op : Op} {extra change : Int32}
    (hc : ∀ k, c.contents k = r.lookup k) (hr : c.request op = some (extra, change)) :
    refStep c.limit r op = some ((op.key, op.value) :: others op.key r, .status true) := by
  obtain ⟨hadm, ⟨ho, hop | hop, _⟩ | ⟨old, ho, _, ⟨hop, _⟩ | ⟨hop, _⟩⟩⟩ := Cache.request_cases hr
  · rw [hop]
    exact if_pos hadm
  · rw [hc] at ho
    rw [hop, others_eq_self (show r.lookup (Op.putIfAbsent op.key op.value).key = none from ho)]
    exact if_pos ⟨hadm, ho⟩
  · rw [hop]
    exact if_pos hadm
  · rw [hc] at ho
    rw [hop]
    exact if_pos ⟨hadm, by simp [ho]⟩

theorem refStep_of_settle {c : Cache} {r : List (Bytes × Bytes)} {op : Op}
    (hc : ∀ k, c.contents k = r.lookup k) (hr : c.request op = none) (hmiss : c.DeleteMisses op) :
    ∃ r', refStep c.limit r op = some (r', (c.settle op).2) ∧
      ∀ k, (c.settle op).1.contents k = r'.lookup k := by
  cases op with
  | put k v =>
    have hv : ¬ c.Admits k v := by
      intro hv
      cases ho : c.contents k <;> simp [Cache.request, hv, ho] at hr
    exact ⟨r, if_neg hv, hc⟩
  | putIfAbsent k v =>
    refine ⟨r, if_neg fun hh => ?_, hc⟩
    rw [← hc] at hh
    have hv : c.Admits k v := hh.1
    simp [Cache.request, hv, hh.2] at hr
  | set k v =>
    refine ⟨r, if_neg fun hh => ?_, hc⟩
    rw [← hc] at hh
    have hv : c.Admits k v := hh.1
    obtain ⟨old, ho⟩ := Option.isSome_iff_exists.mp hh.2
    simp [Cache.request, hv, ho] at hr
  | delete k =>
    have hrl : r.lookup k = none := (hc k).symm.trans hmiss
    exact ⟨r, by simp [refStep, Cache.settle, hrl], hc⟩
  | get k =>
    cases ho : c.contents k with
    | none =>
      have hrl : r.lookup k = none := (hc k).symm.trans ho
      exact ⟨r, by simp [refStep, Cache.settle, ho, hrl], by simpa [Cache.settle, ho] using hc⟩
    | some v =>
      have hrl : r.lookup k = some v := (hc k).symm.trans ho
      refine ⟨r, by simp [refStep, Cache.settle, ho, hrl], fun key => ?_⟩
      simp only [Cache.settle, ho]
      rw [Cache.contents_touched ho]
      exact hc key

theorem Cache.rewritten_others_contents (c : Cache) (k v : Bytes) (change : Int32)
    {r : List (Bytes × Bytes)} (hc : ∀ key, c.contents key = r.lookup key) (key : Bytes) :
    (c.rewritten k v change (others k c.entries)).contents key = ((k, v) :: others k r).lookup key := by
  by_cases he : key = k
  · simp [he, Cache.contents, Cache.rewritten]
  · have hsame := hc key
    simp only [Cache.contents] at hsame
    simp [Cache.contents, Cache.rewritten, lookup_cons_of_ne he, lookup_others_of_ne he, hsame]

/-- Without eviction, and without a `Delete` that hits, the store answers and changes
as the reference map does. -/
theorem Cache.step_agrees {c : Cache} {r : List (Bytes × Bytes)} {op : Op}
    (hc : ∀ k, c.contents k = r.lookup k) (hno : c.NoEviction op) (hmiss : c.DeleteMisses op) :
    ∃ c' r' reply, c.step op = some (c', reply) ∧ refStep c.limit r op = some (r', reply) ∧
      ∀ k, c'.contents k = r'.lookup k := by
  cases hr : c.request op with
  | none =>
    obtain ⟨r', href, hsame⟩ := refStep_of_settle hc hr hmiss
    exact ⟨_, r', _, Cache.step_of_settle hr hmiss, href, hsame⟩
  | some plan =>
    obtain ⟨extra, change⟩ := plan
    refine ⟨c.rewritten op.key op.value change (others op.key c.entries), _, .status true, ?_,
      refStep_of_request hc hr, c.rewritten_others_contents op.key op.value change hc⟩
    rw [Cache.step_of_request hr, shed_of_nonpos (hno _ hr)]
    rfl

/-- A call that enters the eviction loop loses an entry under another key. -/
theorem Cache.Sound.eviction_loses {c c' : Cache} (h : c.Sound) {op : Op} {reply : Reply}
    (hev : ¬ c.NoEviction op) (hs : c.step op = some (c', reply)) :
    ∃ k v, k ≠ op.key ∧ c.contents k = some v ∧ c'.contents k = none := by
  unfold Cache.NoEviction at hev
  push Not at hev
  obtain ⟨⟨extra, change⟩, hr, hover⟩ := hev
  rw [Cache.step_of_request hr] at hs
  obtain ⟨kept, hk, he⟩ := Option.map_eq_some_iff.mp hs
  cases he
  obtain ⟨dropped, hsplit, hheavy, _⟩ := shed_spec hk
  obtain ⟨⟨k, v⟩, rest, hd⟩ : ∃ e rest, dropped = e :: rest := by
    cases dropped with
    | nil =>
      have hpos : 0 < c.excess extra := by simpa using hover
      simp only [weight_nil] at hheavy
      omega
    | cons e rest => exact ⟨e, rest, rfl⟩
  have hmem : (k, v) ∈ others op.key c.entries := by rw [hsplit, hd]; simp
  have hne : k ≠ op.key := (mem_others.mp hmem).2
  refine ⟨k, v, hne, lookup_of_mem h.distinct (mem_others.mp hmem).1, ?_⟩
  have hnone : kept.lookup k = none := by
    refine lookup_eq_none.mpr fun u hu => ?_
    have hdist := h.distinct.others op.key
    unfold Distinct at hdist
    rw [hsplit, hd, List.map_append, List.nodup_append] at hdist
    exact hdist.2.2 k (List.mem_map_of_mem hu) k (by simp) rfl
  simpa [Cache.contents, Cache.rewritten, lookup_cons_of_ne hne] using hnone

theorem Store.Reach.maxSize_eq {m : Int32} (hm : 0 ≤ m) {history : List (Op × Reply)} {s : Store}
    (reach : Store.Reach m history s) : s.maxSize = m := by
  induction reach with
  | start => rfl
  | next reach hs ih =>
    have hstep := (Store.Reach.valid hm reach).cache_step hs
    rcases Cache.step_cases hstep with ⟨_, _, _, _, _, _, he⟩ | ⟨_, _, _, _, _, he⟩ | ⟨he, _⟩ <;>
    exact (congrArg Cache.limit he).trans ih

theorem no_eviction_of_nothing_lost {m : Int32} (hm : 0 ≤ m) {calls : List Op}
    (hlost : NothingLost m calls) {history : List (Op × Reply)} {s : Store} {op : Op}
    (reach : Store.Reach m history s) (hpre : history.map Prod.fst ++ [op] <+: calls) :
    s.cache.NoEviction op ∧ s.DeleteMisses op := by
  have hvalid := Store.Reach.valid hm reach
  obtain ⟨s₀, r, history₀, hrun, hrefrun, hsame⟩ := hlost _ ((List.prefix_append _ _).trans hpre)
  cases hrun.symm.trans reach.run_eq
  obtain ⟨t, r', history', hrun', hrefrun', hsame'⟩ := hlost _ hpre
  obtain ⟨reply, hs⟩ := PartialRun.step_of_run_snoc hrun hrun'
  obtain ⟨rreply, hrs⟩ := PartialRun.step_of_run_snoc hrefrun hrefrun'
  constructor
  · by_contra hev
    obtain ⟨k, v, hne, hbefore, hafter⟩ := hvalid.sound.eviction_loses hev (hvalid.cache_step hs)
    have hkept := refStep_lookup_of_ne hrs hne
    rw [← hsame, ← hsame', hbefore, hafter] at hkept
    simp at hkept
  · by_contra hhit
    cases (Store.step_delete_hit hhit).symm.trans hs

theorem nothing_lost_of_no_eviction {m : Int32} (hm : 0 ≤ m) {calls : List Op}
    (hno : ∀ history s op, Store.Reach m history s → history.map Prod.fst ++ [op] <+: calls →
      s.cache.NoEviction op ∧ s.DeleteMisses op) : NothingLost m calls := by
  intro pre hpre
  induction pre using List.reverseRecOn with
  | nil => exact ⟨_, [], [], rfl, rfl, fun k => rfl⟩
  | append_singleton pre op ih =>
    obtain ⟨s, r, history, hrun, hrefrun, hsame⟩ := ih ((List.prefix_append _ _).trans hpre)
    have reach : Store.Reach m history s := PartialRun.run_reach hrun
    have hvalid := Store.Reach.valid hm reach
    have hcalls := PartialRun.run_calls hrun
    obtain ⟨hev, hmiss⟩ := hno history s op reach (by rw [hcalls]; exact hpre)
    obtain ⟨c', r', reply, hs, hrs, hsame'⟩ :=
      Cache.step_agrees hsame hev ((hvalid.linked.deleteMisses_iff op).mpr hmiss)
    rw [← hvalid.step_refines op] at hs
    obtain ⟨⟨t, reply'⟩, ht, he⟩ := Option.map_eq_some_iff.mp hs
    cases he
    have hlimit : s.cache.limit = m := Store.Reach.maxSize_eq hm reach
    rw [hlimit] at hrs
    exact ⟨t, r', _, PartialRun.run_snoc hrun ht, PartialRun.run_snoc hrefrun hrs, hsame'⟩

/-- As long as the reference map fits, the store gives the same replies and
loses no entry, if and only if no call of the run finds the counter plus the
requested growth over the limit, and no `Delete` of the run hits. -/
theorem nothing_lost_iff {m : Int32} (hm : 0 ≤ m) (calls : List Op) :
    ReferenceFits m calls → (NothingLost m calls ↔
      ∀ history s op, Store.Reach m history s → history.map Prod.fst ++ [op] <+: calls →
        s.cache.NoEviction op ∧ s.DeleteMisses op) := by
  intro _
  exact ⟨fun hlost _ _ _ reach hpre => no_eviction_of_nothing_lost hm hlost reach hpre,
    nothing_lost_of_no_eviction hm⟩

/-- Every update by `Set` counts the key again, so an entry is evicted while
everything fits. -/
theorem set_drift_loses_entry :
    let calls : List Op := .put (text "a") (text "1") ::
      List.replicate 8 (.set (text "a") (text "1")) ++
      [.put (text "b") (text "1"), .get (text "a")]
    ReferenceFits 10 calls ∧ ¬ NothingLost 10 calls ∧
      (PartialRun.run Store.step (Store.fresh 10) calls).map (fun r => r.2.getLast?) =
        some (some (.get (text "a"), .value none)) ∧
      (PartialRun.run (refStep 10) [] calls).map (fun r => r.2.getLast?) =
        some (some (.get (text "a"), .value (some (text "1")))) := by
  intro calls
  have hstore : (PartialRun.run Store.step (Store.fresh 10) calls).map (fun r => r.2.getLast?) =
      some (some (.get (text "a"), .value none)) := by decide
  have hmap : (PartialRun.run (refStep 10) [] calls).map (fun r => r.2.getLast?) =
      some (some (.get (text "a"), .value (some (text "1")))) := by decide
  refine ⟨PartialRun.holds_of_always (by decide), fun hlost => ?_, hstore, hmap⟩
  obtain ⟨s, r, history, hrun, hrefrun, _⟩ := hlost _ (List.prefix_refl _)
  rw [hrun] at hstore
  rw [hrefrun, Option.map_some] at hmap
  rw [Option.map_some, hmap] at hstore
  simp at hstore

theorem nothing_lost_iff_full :
    let calls : List Op := [.put (text "a") (text "1"), .put (text "b") (text "123"),
      .put (text "a") (text "2"), .get (text "b"), .delete (text "c"),
      .putIfAbsent (text "a") (text "3")]
    (0 : Int32) ≤ 6 ∧ ReferenceFits 6 calls ∧ NothingLost 6 calls :=
  have hfits : ReferenceFits 6 _ := PartialRun.holds_of_always (by decide)
  ⟨by decide, hfits, (nothing_lost_iff (by decide) _ hfits).mpr
    (PartialRun.holds_of_each (by decide))⟩

end Afina
