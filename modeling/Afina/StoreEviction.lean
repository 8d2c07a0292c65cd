import Afina.CacheModel

namespace Afina

open TailShed

/-- The representation invariant: list and map agree, keys and nodes are
distinct, and every entry is small enough to have been accepted. -/
structure Store.Valid (s : Store) : Prop where
  limit_nonneg : 0 ≤ s.maxSize.toInt
  keys_nodup : (s.lru.map Node.key).Nodup
  addresses_nodup : (s.lru.map Node.address).Nodup
  map_iff : ∀ k a, s.cacheMap k = some a ↔ ∃ n ∈ s.lru, n.key = k ∧ n.address = a
  allocated : ∀ n ∈ s.lru, n.address < s.nextAddress
  fits : ∀ n ∈ s.lru, (n.size : Int) ≤ s.maxSize.toInt

/-- The part of the invariant that has nothing to do with sizes. -/
structure Store.Linked (s : Store) : Prop where
  keys_nodup : (s.lru.map Node.key).Nodup
  addresses_nodup : (s.lru.map Node.address).Nodup
  map_iff : ∀ k a, s.cacheMap k = some a ↔ ∃ n ∈ s.lru, n.key = k ∧ n.address = a
  allocated : ∀ n ∈ s.lru, n.address < s.nextAddress

theorem Store.Valid.linked {s : Store} (h : s.Valid) : s.Linked :=
  ⟨h.keys_nodup, h.addresses_nodup, h.map_iff, h.allocated⟩

theorem Store.Linked.valid {s : Store} (h : s.Linked) (hlimit : 0 ≤ s.maxSize.toInt)
    (hfits : ∀ n ∈ s.lru, (n.size : Int) ≤ s.maxSize.toInt) : s.Valid :=
  ⟨hlimit, h.keys_nodup, h.addresses_nodup, h.map_iff, h.allocated, hfits⟩

theorem Store.fresh_linked (m : Int32) : (Store.fresh m).Linked where
  keys_nodup := List.nodup_nil
  addresses_nodup := List.nodup_nil
  map_iff k a := by simp [Store.fresh]
  allocated n hn := by simp [Store.fresh] at hn

theorem Store.fresh_valid {m : Int32} (h : 0 ≤ m) : (Store.fresh m).Valid :=
  (Store.fresh_linked m).valid (Int32.le_iff_toInt_le.mp h) fun n hn => by simp [Store.fresh] at hn

/-- The store after `FreeSpace` has cut `_lru` down to `kept`. -/
def Store.keep (s : Store) (kept : List Node) : Store :=
  { s with
    lru := kept
    currentSize := s.currentSize - narrow (weight Node.size s.lru - weight Node.size kept)
    cacheMap := fun k =>
      if k ∈ (s.lru.drop kept.length).map Node.key then none else s.cacheMap k }

theorem Store.keep_self (s : Store) : s.keep s.lru = s := by
  simp [Store.keep, Int32.sub_zero]

theorem Store.evictBack_concat {s : Store} {front : List Node} {last : Node}
    (hl : s.lru = front ++ [last]) :
    s.evictBack = some { s with
      currentSize := s.currentSize - narrow last.size
      cacheMap := Function.update s.cacheMap last.key none
      lru := front } := by
  simp [Store.evictBack, hl]

theorem Store.keep_evictBack {s t : Store} {front kept : List Node} {last : Node}
    (hl : s.lru = front ++ [last]) (ht : s.evictBack = some t) (hk : kept <+: front) :
    t.keep kept = s.keep kept := by
  have hd : (front ++ [last]).drop kept.length = front.drop kept.length ++ [last] :=
    List.drop_append_of_le_length hk.length_le
  have hc : s.currentSize - narrow last.size
        - narrow (weight Node.size front - weight Node.size kept) =
      s.currentSize - narrow (weight Node.size (front ++ [last]) - weight Node.size kept) := by
    have hw : ((weight Node.size (front ++ [last]) : Nat) : Int) - weight Node.size kept =
        last.size + (weight Node.size front - weight Node.size kept) := by
      simp only [weight_append, weight_cons, weight_nil]
      omega
    rw [hw, narrow_add]
    grind
  rw [Store.evictBack_concat hl] at ht
  cases Option.some.inj ht
  simp only [Store.keep, hl, hc, hd, Store.mk.injEq, true_and, and_true]
  funext k
  by_cases hk : k = last.key
  · simp [hk]
  · simp [hk]

theorem excess_pos_iff {s : Store} {x : Int32} :
    s.currentSize + x > s.maxSize ↔ 0 < (s.currentSize + x).toInt - s.maxSize.toInt := by
  rw [gt_iff_lt, Int32.lt_iff_toInt_lt]
  omega

/-- While the loop runs, taking an accepted entry off the counter is exact. -/
theorem excess_evictBack {c x m : Int32} {size : Nat} (h : 0 < (c + x).toInt - m.toInt)
    (hs : (size : Int) ≤ m.toInt) :
    (c - narrow size + x).toInt - m.toInt = (c + x).toInt - m.toInt - size := by
  have hm := Int32.toInt_lt m
  have hx := Int32.toInt_lt (c + x)
  have hsize : (narrow (size : Int)).toInt = size := toInt_narrow (by omega) (by omega)
  have hcomm : c - narrow size + x = c + x - narrow size := by grind
  have hexact := toInt_sub_exact (x := c + x) (y := narrow size) (by omega) (by omega)
  rw [hcomm, hexact, hsize]
  omega

/-- `FreeSpace` drops exactly the shortest sufficient tail of `_lru`, and has
no defined result exactly when there is none. -/
theorem Store.freeSpace_eq {s : Store} (x : Int32)
    (fits : ∀ n ∈ s.lru, (n.size : Int) ≤ s.maxSize.toInt) :
    s.freeSpace x =
      (shed Node.size ((s.currentSize + x).toInt - s.maxSize.toInt) s.lru).map s.keep := by
  unfold Store.freeSpace
  obtain ⟨l, hl⟩ : ∃ l, s.lru = l := ⟨_, rfl⟩
  rw [hl]
  induction l using List.reverseRecOn generalizing s with
  | nil =>
    simp only [List.length_nil, Store.freeSpaceLoop, excess_pos_iff, shed]
    by_cases h : 0 < (s.currentSize + x).toInt - s.maxSize.toInt
    · rw [if_pos h, if_neg (by omega), Option.map_none]
    · rw [if_neg h, if_pos (by omega), Option.map_some, ← hl, Store.keep_self]
  | append_singleton front last ih =>
    simp only [List.length_append, List.length_singleton, Store.freeSpaceLoop, excess_pos_iff]
    rw [shed_concat]
    by_cases h : 0 < (s.currentSize + x).toInt - s.maxSize.toInt
    · have ht := Store.evictBack_concat hl
      have hover := excess_evictBack h (fits last (by simp [hl]))
      have hfits : ∀ n ∈ front, (n.size : Int) ≤ s.maxSize.toInt := fun n hn =>
        fits n (by rw [hl]; exact List.mem_append_left _ hn)
      have hih := ih (s := { s with
        currentSize := s.currentSize - narrow last.size
        cacheMap := Function.update s.cacheMap last.key none
        lru := front }) hfits rfl
      rw [hover] at hih
      rw [if_pos h, if_neg (by omega), ht, Option.bind_eq_bind, Option.bind_some, hih]
      refine Option.map_congr fun kept hk => ?_
      exact Store.keep_evictBack hl ht (shed_isPrefix hk)
    · rw [if_neg h, if_pos (by omega), ← hl, Option.map_some, Store.keep_self]

theorem Store.Linked.keep {s : Store} (h : s.Linked) {kept : List Node} (hk : kept <+: s.lru) :
    (s.keep kept).Linked := by
  obtain ⟨dropped, hd⟩ := hk
  have hdrop : s.lru.drop kept.length = dropped := by simp [← hd]
  have hsub : List.Sublist kept s.lru := ⟨dropped, hd⟩ |> List.IsPrefix.sublist
  have hdisjoint : ∀ n ∈ kept, n.key ∉ dropped.map Node.key := by
    have hnodup := h.keys_nodup
    rw [← hd, List.map_append, List.nodup_append] at hnodup
    intro n hn hm
    exact hnodup.2.2 n.key (List.mem_map_of_mem hn) n.key hm rfl
  refine ⟨h.keys_nodup.sublist (hsub.map _), h.addresses_nodup.sublist (hsub.map _), ?_,
    fun n hn => h.allocated n (hsub.subset hn)⟩
  intro k a
  simp only [Store.keep, hdrop]
  constructor
  · intro hm
    split at hm
    next => simp at hm
    next hnot =>
      obtain ⟨n, hn, hkey, haddr⟩ := (h.map_iff k a).mp hm
      rw [← hd] at hn
      rcases List.mem_append.mp hn with hn | hn
      · exact ⟨n, hn, hkey, haddr⟩
      · exact absurd (hkey ▸ List.mem_map_of_mem hn) hnot
  · rintro ⟨n, hn, rfl, rfl⟩
    rw [if_neg (hdisjoint n hn)]
    exact (h.map_iff _ _).mpr ⟨n, hsub.subset hn, rfl, rfl⟩

theorem Store.Valid.keep {s : Store} (h : s.Valid) {kept : List Node} (hk : kept <+: s.lru) :
    (s.keep kept).Valid :=
  (h.linked.keep hk).valid h.limit_nonneg fun n hn => h.fits n (hk.subset hn)

end Afina
