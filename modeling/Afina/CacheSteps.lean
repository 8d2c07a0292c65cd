import Afina.StoreRefinement

namespace Afina

open TailShed KeyedList

/-- The part of the store invariant that is visible in the recency list. -/
structure Cache.Sound (c : Cache) : Prop where
  limit_nonneg : 0 ≤ c.limit.toInt
  distinct : Distinct c.entries
  fits : ∀ e ∈ c.entries, (entrySize e : Int) ≤ c.limit.toInt

theorem Store.Valid.sound {s : Store} (h : s.Valid) : s.cache.Sound where
  limit_nonneg := h.limit_nonneg
  distinct := h.linked.distinct
  fits e he := by
    obtain ⟨n, hn, rfl⟩ := List.mem_map.mp he
    exact h.fits n hn

theorem Cache.Sound.fits_of_contents {c : Cache} (h : c.Sound) {k v : Bytes}
    (hc : c.contents k = some v) : c.Admits k v :=
  h.fits (k, v) (mem_of_lookup hc)

/-- The writes that are carried out: an insertion, an overwrite by `Put`, which
leaves the counter alone, and an update by `Set`. -/
theorem Cache.request_cases {c : Cache} {op : Op} {extra change : Int32}
    (hr : c.request op = some (extra, change)) :
    c.Admits op.key op.value ∧
      ((c.contents op.key = none ∧ (op = .put op.key op.value ∨ op = .putIfAbsent op.key op.value) ∧
          extra = narrow (entrySize (op.key, op.value)) ∧
          change = narrow (entrySize (op.key, op.value))) ∨
        ∃ old, c.contents op.key = some old ∧ extra = narrow (op.value.length - old.length) ∧
          ((op = .put op.key op.value ∧ change = 0) ∨
            (op = .set op.key op.value ∧
              change = narrow (entrySize (op.key, op.value) - old.length)))) := by
  cases op with
  | put k v =>
    simp only [Cache.request] at hr
    split at hr
    next hv =>
      refine ⟨hv, ?_⟩
      cases hc : c.contents k with
      | none =>
        rw [hc] at hr
        cases hr
        exact Or.inl ⟨hc, Or.inl rfl, rfl, rfl⟩
      | some old =>
        rw [hc] at hr
        cases hr
        exact Or.inr ⟨old, hc, rfl, Or.inl ⟨rfl, rfl⟩⟩
    next => simp at hr
  | putIfAbsent k v =>
    simp only [Cache.request] at hr
    split at hr
    next hv =>
      refine ⟨hv, ?_⟩
      cases hc : c.contents k with
      | none =>
        rw [hc] at hr
        cases hr
        exact Or.inl ⟨hc, Or.inr rfl, rfl, rfl⟩
      | some old => simp [hc] at hr
    next => simp at hr
  | set k v =>
    simp only [Cache.request] at hr
    split at hr
    next hv =>
      refine ⟨hv, ?_⟩
      cases hc : c.contents k with
      | none => simp [hc] at hr
      | some old =>
        rw [hc] at hr
        cases hr
        exact Or.inr ⟨old, hc, rfl, Or.inr ⟨rfl, rfl⟩⟩
    next => simp at hr
  | delete k => simp [Cache.request] at hr
  | get k => simp [Cache.request] at hr

theorem Cache.rewritten_contents_self (c : Cache) (k v : Bytes) (change : Int32)
    (kept : List (Bytes × Bytes)) : (c.rewritten k v change kept).contents k = some v := by
  simp [Cache.contents, Cache.rewritten]

theorem Cache.rewritten_contents_of_ne {c : Cache} {k key v value : Bytes} {change : Int32}
    {kept : List (Bytes × Bytes)} (hk : kept <+: others k c.entries) (hne : key ≠ k)
    (h : (c.rewritten k v change kept).contents key = some value) : c.contents key = some value := by
  have hkept : kept.lookup key = some value := by
    simpa [Cache.contents, Cache.rewritten, lookup_cons_of_ne hne] using h
  have hothers := lookup_of_prefix hk hkept
  rwa [lookup_others_of_ne hne] at hothers

/-- What one call can do: write one key and hide others, or leave every
association as it is. -/
theorem Cache.step_cases {c c' : Cache} {op : Op} {r : Reply} (hs : c.step op = some (c', r)) :
    (∃ extra change kept, c.request op = some (extra, change) ∧ r = .status true ∧
      shed entrySize (c.excess extra) (others op.key c.entries) = some kept ∧
      c' = c.rewritten op.key op.value change kept) ∨
    (∃ k v, op = .get k ∧ r = .value (some v) ∧ c.contents k = some v ∧
      c' = { c with entries := (k, v) :: others k c.entries }) ∨
    (c' = c ∧ c.request op = none ∧ r ≠ .status true ∧ ∀ v, r ≠ .value (some v)) := by
  cases hr : c.request op with
  | some plan =>
    obtain ⟨extra, change⟩ := plan
    simp only [Cache.step, hr, Cache.write, Option.map_map] at hs
    obtain ⟨kept, hk, he⟩ := Option.map_eq_some_iff.mp hs
    cases he
    exact Or.inl ⟨extra, change, kept, rfl, rfl, hk, rfl⟩
  | none =>
    simp only [Cache.step, hr] at hs
    split at hs
    next hmiss =>
      cases op with
      | get k =>
        cases hc : c.contents k with
        | none =>
          simp only [Cache.settle, hc] at hs
          cases hs
          exact Or.inr (Or.inr ⟨rfl, rfl, by simp, by simp⟩)
        | some v =>
          simp only [Cache.settle, hc] at hs
          cases hs
          exact Or.inr (Or.inl ⟨k, v, rfl, rfl, hc, rfl⟩)
      | _ => cases hs; exact Or.inr (Or.inr ⟨rfl, rfl, by simp, by simp⟩)
    next => cases hs

theorem Cache.contents_touched {c : Cache} {k v : Bytes} (hc : c.contents k = some v) :
    Cache.contents { c with entries := (k, v) :: others k c.entries } = c.contents := by
  funext key
  by_cases he : key = k
  · subst he
    simpa [Cache.contents] using hc.symm
  · simp [Cache.contents, lookup_cons_of_ne he, lookup_others_of_ne he]

/-- Bytes already held under a key. -/
def Cache.own (c : Cache) (k : Bytes) : Nat :=
  match c.contents k with
  | none => 0
  | some old => entrySize (k, old)

def Cache.rest (c : Cache) (k : Bytes) : Nat := weight entrySize (others k c.entries)

theorem Cache.own_of_none {c : Cache} {k : Bytes} (hc : c.contents k = none) : c.own k = 0 := by
  simp [Cache.own, hc]

theorem Cache.own_of_some {c : Cache} {k old : Bytes} (hc : c.contents k = some old) :
    c.own k = entrySize (k, old) := by
  simp [Cache.own, hc]

theorem Cache.Sound.total_eq {c : Cache} (h : c.Sound) (k : Bytes) : c.total = c.own k + c.rest k := by
  cases hc : c.contents k with
  | none => simp [Cache.total, Cache.rest, Cache.own_of_none hc, others_eq_self hc]
  | some old =>
    rw [Cache.own_of_some hc]
    exact weight_others h.distinct hc

theorem Cache.Sound.own_le {c : Cache} (h : c.Sound) (k : Bytes) : (c.own k : Int) ≤ c.limit.toInt := by
  cases hc : c.contents k with
  | none => simpa [Cache.own_of_none hc] using h.limit_nonneg
  | some old =>
    rw [Cache.own_of_some hc]
    exact h.fits_of_contents hc

theorem Cache.request_extra {c : Cache} {op : Op} {extra change : Int32}
    (hr : c.request op = some (extra, change)) :
    extra = narrow (entrySize (op.key, op.value) - c.own op.key) := by
  rcases Cache.request_cases hr with ⟨_, ⟨hc, _, hx, _⟩ | ⟨old, hc, hx, _⟩⟩
  · simp [hx, Cache.own_of_none hc]
  · have hgrow : (op.value.length : Int) - old.length =
        (entrySize (op.key, op.value) : Nat) - (entrySize (op.key, old) : Nat) := by
      simp only [entrySize]
      omega
    rw [hx, Cache.own_of_some hc, hgrow]

theorem Cache.excess_narrow (c : Cache) (x : Int) :
    c.excess (narrow x) = (narrow (c.counter.toInt + x)).toInt - c.limit.toInt := by
  rw [Cache.excess, narrow_add, narrow_toInt]

theorem Cache.counter_rewritten (c : Cache) (k v : Bytes) (change : Int)
    (kept : List (Bytes × Bytes)) :
    (c.rewritten k v (narrow change) kept).counter =
      narrow (c.counter.toInt - (c.rest k - weight entrySize kept) + change) := by
  rw [narrow_add, narrow_sub, narrow_toInt]
  rfl

theorem Cache.total_rewritten (c : Cache) (k v : Bytes) (change : Int32)
    (kept : List (Bytes × Bytes)) :
    (c.rewritten k v change kept).total = entrySize (k, v) + weight entrySize kept := by
  simp [Cache.total, Cache.rewritten]

theorem Cache.step_of_request {c : Cache} {op : Op} {extra change : Int32}
    (hr : c.request op = some (extra, change)) :
    c.step op = (shed entrySize (c.excess extra) (others op.key c.entries)).map
      fun kept => (c.rewritten op.key op.value change kept, .status true) := by
  simp only [Cache.step, hr, Cache.write, Option.map_map]
  rfl

theorem Cache.step_of_settle {c : Cache} {op : Op} (hr : c.request op = none)
    (hmiss : c.DeleteMisses op) : c.step op = some (c.settle op) := by
  simp [Cache.step, hr, hmiss]

theorem Cache.step_delete_hit {c : Cache} {op : Op} (h : ¬ c.DeleteMisses op) :
    c.step op = none := by
  cases op with
  | delete k => simp [Cache.step, Cache.request, h]
  | _ => exact absurd trivial h

theorem Cache.deleteMisses_of_request {c : Cache} {op : Op} {plan : Int32 × Int32}
    (hr : c.request op = some plan) : c.DeleteMisses op := by
  cases op with
  | delete k => simp [Cache.request] at hr
  | _ => trivial

theorem Cache.step_exists_of_shed {c : Cache} {op : Op} {extra change : Int32}
    {kept : List (Bytes × Bytes)} (hr : c.request op = some (extra, change))
    (hk : shed entrySize (c.excess extra) (others op.key c.entries) = some kept) (P : Cache → Prop) :
    (∃ c' r, c.step op = some (c', r) ∧ P c') ↔ P (c.rewritten op.key op.value change kept) := by
  have hs : c.step op = some (c.rewritten op.key op.value change kept, .status true) := by
    rw [Cache.step_of_request hr, hk]
    rfl
  constructor
  · rintro ⟨c', r, hc, hp⟩
    cases hs.symm.trans hc
    exact hp
  · exact fun hp => ⟨_, _, hs, hp⟩

theorem Cache.step_exists_of_settle {c : Cache} {op : Op} (hr : c.request op = none)
    (hmiss : c.DeleteMisses op) (P : Cache → Prop) :
    (∃ c' r, c.step op = some (c', r) ∧ P c') ↔ P (c.settle op).1 := by
  have hs := Cache.step_of_settle hr hmiss
  constructor
  · rintro ⟨c', r, hc, hp⟩
    have he : (c.settle op).1 = c' := congrArg Prod.fst (Option.some.inj (hs.symm.trans hc))
    rwa [he]
  · exact fun hp => ⟨_, _, hs, hp⟩

theorem Cache.step_forall_of_exists {c : Cache} {op : Op} {P : Cache → Prop}
    (h : ∃ c' r, c.step op = some (c', r) ∧ P c') :
    ∀ c' r, c.step op = some (c', r) → P c' := by
  obtain ⟨c₁, r₁, hs, hp⟩ := h
  intro c' r hs'
  cases hs.symm.trans hs'
  exact hp

theorem Store.Valid.step_exists_iff {s : Store} (h : s.Valid) (op : Op) (P : Cache → Prop) :
    (∃ t r, s.step op = some (t, r) ∧ P t.cache) ↔
      ∃ c r, s.cache.step op = some (c, r) ∧ P c := by
  rw [← h.step_refines op]
  constructor
  · rintro ⟨t, r, hs, hp⟩
    exact ⟨t.cache, r, by rw [hs]; rfl, hp⟩
  · rintro ⟨c, r, hc, hp⟩
    obtain ⟨⟨t, r'⟩, hs, he⟩ := Option.map_eq_some_iff.mp hc
    cases he
    exact ⟨t, _, hs, hp⟩

end Afina
