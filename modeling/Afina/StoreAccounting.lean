import Afina.CacheSteps

namespace Afina

open TailShed KeyedList

def Store.Accounted (s : Store) : Prop := s.currentSize.toInt = s.bytesHeld

def Cache.Counts (c : Cache) : Prop := c.counter.toInt = c.total

theorem Store.total_cache (s : Store) : s.cache.total = s.bytesHeld := by
  simp only [Cache.total, Store.cache, weight_map]
  rfl

/-- The calls that leave a right counter right: insertions whose sum with the
counter is still an `int`, overwrites by `Put` with a value of the same length,
updates by `Set` of the empty key, and every call that is refused, misses or only
reads. -/
def Cache.KeepsCount (c : Cache) : Op → Prop
  | .put k v => c.Admits k v →
    (c.contents k = none → c.counter.toInt + entrySize (k, v) < 2 ^ 31) ∧
      ∀ old ∈ c.contents k, v.length = old.length
  | .putIfAbsent k v => c.Admits k v → c.contents k = none →
    c.counter.toInt + entrySize (k, v) < 2 ^ 31
  | .set k v => c.Admits k v → ∀ old ∈ c.contents k,
    k = [] ∧ c.counter.toInt + v.length - old.length < 2 ^ 31
  | .delete k => c.contents k = none
  | .get _ => True

instance (s : Store) : Decidable s.Accounted :=
  inferInstanceAs (Decidable (s.currentSize.toInt = s.bytesHeld))

instance (c : Cache) (op : Op) : Decidable (c.KeepsCount op) :=
  match op with
  | .put k v => inferInstanceAs (Decidable (c.Admits k v →
    (c.contents k = none → c.counter.toInt + entrySize (k, v) < 2 ^ 31) ∧
      ∀ old ∈ c.contents k, v.length = old.length))
  | .putIfAbsent k v => inferInstanceAs (Decidable (c.Admits k v → c.contents k = none →
    c.counter.toInt + entrySize (k, v) < 2 ^ 31))
  | .set k v => inferInstanceAs (Decidable (c.Admits k v → ∀ old ∈ c.contents k,
    k = [] ∧ c.counter.toInt + v.length - old.length < 2 ^ 31))
  | .delete k => inferInstanceAs (Decidable (c.contents k = none))
  | .get _ => inferInstanceAs (Decidable True)

theorem Cache.Sound.excess_of_counts {c : Cache} (h : c.Sound) (hc : c.Counts) {op : Op}
    {extra change : Int32} (hr : c.request op = some (extra, change)) :
    c.excess extra =
      (narrow (c.rest op.key + entrySize (op.key, op.value))).toInt - c.limit.toInt := by
  have hsum : c.counter.toInt + (entrySize (op.key, op.value) - c.own op.key) =
      c.rest op.key + entrySize (op.key, op.value) := by
    have htotal := h.total_eq op.key
    unfold Cache.Counts at hc
    omega
  rw [Cache.request_extra hr, Cache.excess_narrow, hsum]

/-- While the counter is right, an entry within the limit finds room. -/
theorem Cache.Sound.excess_le_rest {c : Cache} (h : c.Sound) (hc : c.Counts) {op : Op}
    {extra change : Int32} (hr : c.request op = some (extra, change)) :
    c.excess extra ≤ c.rest op.key := by
  have hadm : (entrySize (op.key, op.value) : Int) ≤ c.limit.toInt := (Cache.request_cases hr).1
  have hlimit := Int32.toInt_lt c.limit
  have htotal := h.total_eq op.key
  have hmax := Int32.toInt_lt c.counter
  rw [h.excess_of_counts hc hr]
  unfold Cache.Counts at hc
  by_cases hfit : c.rest op.key + entrySize (op.key, op.value) < 2 ^ 31
  · rw [toInt_narrow (by omega) (by omega)]
    omega
  · rw [toInt_narrow_wrap (by omega) (by omega)]
    omega

/-- A write leaves a right counter right exactly when the bytes that would then
be held without eviction are an `int` and the adjustment is the growth. -/
theorem Cache.Sound.counts_write_iff {c : Cache} (h : c.Sound) (hc : c.Counts) {op : Op}
    {extra : Int32} {change : Int} (hr : c.request op = some (extra, narrow change))
    (lo : 0 ≤ c.own op.key + change) (hi : c.own op.key + change < 2 ^ 32) :
    (∃ c' r, c.step op = some (c', r) ∧ c'.Counts) ↔
      (c.rest op.key + entrySize (op.key, op.value) < 2 ^ 31 ∧
        c.own op.key + change = entrySize (op.key, op.value)) := by
  have hadm : (entrySize (op.key, op.value) : Int) ≤ c.limit.toInt := (Cache.request_cases hr).1
  have hlimit := Int32.toInt_lt c.limit
  have htotal := h.total_eq op.key
  have hmax := Int32.toInt_lt c.counter
  have hover := h.excess_of_counts hc hr
  obtain ⟨kept, hk⟩ := Option.isSome_iff_exists.mp (shed_isSome_iff.mpr (h.excess_le_rest hc hr))
  unfold Cache.Counts at hc
  by_cases hfit : c.rest op.key + entrySize (op.key, op.value) < 2 ^ 31
  · have hexact : c.excess extra =
        c.rest op.key + entrySize (op.key, op.value) - c.limit.toInt := by
      rw [hover, toInt_narrow (by omega) (by omega)]
    obtain ⟨dropped, hsplit, _⟩ := shed_spec hk
    have hweight : c.rest op.key = weight entrySize kept + weight entrySize dropped := by
      rw [Cache.rest, hsplit, weight_append]
    rw [Cache.step_exists_of_shed hr hk, Cache.Counts, Cache.counter_rewritten,
      Cache.total_rewritten]
    by_cases hwrap : (c.own op.key : Int) + change + weight entrySize kept < 2 ^ 31
    · rw [toInt_narrow (by omega) (by omega)]
      omega
    · rw [toInt_narrow_wrap (by omega) (by omega)]
      omega
  · have hwrap : c.excess extra ≤ 0 := by
      rw [hover, toInt_narrow_wrap (by omega) (by omega)]
      omega
    rw [Cache.step_exists_of_shed hr (shed_of_nonpos hwrap), Cache.Counts, Cache.total_rewritten]
    have hnot := Int32.toInt_lt
      (c.rewritten op.key op.value (narrow change) (others op.key c.entries)).counter
    unfold Cache.rest at hfit ⊢
    omega

theorem Cache.Sound.counts_insert_iff {c : Cache} (h : c.Sound) (hc : c.Counts) {op : Op}
    {extra : Int32} (hr : c.request op = some (extra, narrow (entrySize (op.key, op.value))))
    (habsent : c.contents op.key = none) :
    (∃ c' r, c.step op = some (c', r) ∧ c'.Counts) ↔
      c.counter.toInt + entrySize (op.key, op.value) < 2 ^ 31 := by
  have hadm : (entrySize (op.key, op.value) : Int) ≤ c.limit.toInt := (Cache.request_cases hr).1
  have hlimit := Int32.toInt_lt c.limit
  have hown := Cache.own_of_none habsent
  have htotal := h.total_eq op.key
  rw [h.counts_write_iff hc hr (by omega) (by omega)]
  unfold Cache.Counts at hc
  omega

theorem Cache.Sound.counts_overwrite_iff {c : Cache} (h : c.Sound) (hc : c.Counts)
    {k v old : Bytes} (hv : c.Admits k v) (ho : c.contents k = some old) :
    (∃ c' r, c.step (.put k v) = some (c', r) ∧ c'.Counts) ↔ v.length = old.length := by
  have hr : c.request (.put k v) = some (narrow (v.length - old.length), narrow 0) := by
    simp [Cache.request, hv, ho]
  have hown := Cache.own_of_some ho
  have hle := h.own_le k
  have htotal := h.total_eq k
  have hlimit := Int32.toInt_lt c.limit
  have hmax := Int32.toInt_lt c.counter
  rw [h.counts_write_iff hc hr (by simp) (by simp only [Op.key]; omega)]
  simp only [Op.key, Op.value, hown, entrySize] at *
  unfold Cache.Counts at hc
  omega

theorem Cache.Sound.counts_update_iff {c : Cache} (h : c.Sound) (hc : c.Counts)
    {k v old : Bytes} (hv : c.Admits k v) (ho : c.contents k = some old) :
    (∃ c' r, c.step (.set k v) = some (c', r) ∧ c'.Counts) ↔
      k = [] ∧ c.counter.toInt + v.length - old.length < 2 ^ 31 := by
  have hr : c.request (.set k v) = some (narrow (v.length - old.length),
      narrow (entrySize (k, v) - old.length)) := by
    simp [Cache.request, hv, ho]
  have hown := Cache.own_of_some ho
  have hle := h.own_le k
  have htotal := h.total_eq k
  have hlimit := Int32.toInt_lt c.limit
  have hadm : (entrySize (k, v) : Int) ≤ c.limit.toInt := hv
  rw [h.counts_write_iff hc hr (by simp only [Op.key, hown, entrySize]; omega)
    (by simp only [Op.key, hown, entrySize] at *; omega)]
  simp only [Op.key, Op.value, hown, entrySize, ← List.length_eq_zero_iff] at *
  unfold Cache.Counts at hc
  omega

theorem Cache.Sound.counts_settle_iff {c : Cache} (h : c.Sound) (hc : c.Counts) {op : Op}
    (hr : c.request op = none) (hmiss : c.DeleteMisses op) :
    (c.settle op).1.Counts ↔ c.KeepsCount op := by
  cases op with
  | put k v =>
    have hv : ¬ c.Admits k v := fun hv => by
      cases ho : c.contents k <;> simp [Cache.request, hv, ho] at hr
    simpa [Cache.KeepsCount, hv, Cache.settle] using hc
  | putIfAbsent k v =>
    have hv : c.Admits k v → c.contents k ≠ none := fun hv ho => by
      simp [Cache.request, hv, ho] at hr
    exact ⟨fun _ hadm ho => absurd ho (hv hadm), fun _ => hc⟩
  | set k v =>
    have hv : c.Admits k v → c.contents k = none := fun hv => by
      cases ho : c.contents k with
      | none => rfl
      | some old => simp [Cache.request, hv, ho] at hr
    exact ⟨fun _ hadm old ho => by simp [hv hadm] at ho, fun _ => hc⟩
  | delete k => exact iff_of_true hc hmiss
  | get k =>
    cases ho : c.contents k with
    | none => simpa [Cache.KeepsCount, ho, Cache.settle] using hc
    | some v =>
      have htotal := h.total_eq k
      rw [Cache.own_of_some ho] at htotal
      simp only [Cache.settle, ho, Cache.Counts, Cache.total, Cache.KeepsCount, iff_true] at *
      simp only [Cache.rest] at htotal
      rw [weight_cons]
      omega

theorem Cache.Sound.keepsCount_iff {c : Cache} (h : c.Sound) (hc : c.Counts) (op : Op) :
    (∃ c' r, c.step op = some (c', r) ∧ c'.Counts) ↔ c.KeepsCount op := by
  cases hr : c.request op with
  | none =>
    by_cases hmiss : c.DeleteMisses op
    · rw [Cache.step_exists_of_settle hr hmiss, h.counts_settle_iff hc hr hmiss]
    · refine iff_of_false (by simp [Cache.step_delete_hit hmiss]) fun hkeeps => hmiss ?_
      cases op with
      | delete k => exact hkeeps
      | _ => trivial
  | some plan =>
    obtain ⟨extra, change⟩ := plan
    obtain ⟨hv, ⟨ho, hop, _, hchange⟩ | ⟨old, ho, _, ⟨hop, _⟩ | ⟨hop, _⟩⟩⟩ := Cache.request_cases hr
    · rw [hchange] at hr
      rw [h.counts_insert_iff hc hr ho]
      clear hr hchange
      generalize op.key = k at hv ho hop ⊢
      generalize op.value = v at hv hop ⊢
      rcases hop with rfl | rfl <;> simp [Cache.KeepsCount, hv, ho]
    · rw [hop, h.counts_overwrite_iff hc hv ho]
      simp [Cache.KeepsCount, hv, ho]
    · rw [hop, h.counts_update_iff hc hv ho]
      simp [Cache.KeepsCount, hv, ho]

/-- A list of calls on the empty store can be run, and the counter is the number of
bytes held in every state reached, if and only if every call is one of the listed
kinds in the state it is made in. -/
theorem accounted_along_iff {m : Int32} (hm : 0 ≤ m) (calls : List Op) :
    ((PartialRun.run Store.step (Store.fresh m) calls).isSome ∧
        ∀ history s, Store.Reach m history s → history.map Prod.fst <+: calls → s.Accounted) ↔
      ∀ history s op, Store.Reach m history s → history.map Prod.fst ++ [op] <+: calls →
        s.cache.KeepsCount op := by
  refine PartialRun.completes_along_iff (I := Store.Valid) (Store.fresh_valid hm)
    (fun _ _ _ _ h hs => h.step hs) (by simp [Store.Accounted, Store.fresh, Store.bytesHeld]) ?_ calls
  intro s op hvalid hacc
  have hcounts : s.cache.Counts := by rw [Cache.Counts, Store.total_cache]; exact hacc
  rw [← hvalid.sound.keepsCount_iff hcounts op, ← hvalid.step_exists_iff op]
  simp only [Cache.Counts, Store.total_cache]
  rfl

/-- Overwriting by `Put` with a longer value leaves the counter behind. -/
theorem put_overwrite_miscounts :
    ∃ history s, Store.Reach 16 history s ∧
      history.map Prod.fst = [.put (text "k") (text "v"), .put (text "k") (text "vvv")] ∧
      ¬ s.Accounted :=
  PartialRun.reach_of_check _ _ _ _ (by decide)

theorem accounted_along_iff_same_length :
    (0 : Int32) ≤ 9 ∧
      ∀ history s, Store.Reach 9 history s → history.map Prod.fst <+:
        [.put (text "a") (text "12"), .putIfAbsent (text "b") (text "3456"), .delete (text "c"),
          .put (text "b") (text "7890"), .get (text "b")] → s.Accounted :=
  ⟨by decide, ((accounted_along_iff (by decide) _).mpr (PartialRun.holds_of_each (by decide))).2⟩

end Afina
