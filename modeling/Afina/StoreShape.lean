import Afina.StoreRoom

namespace Afina

open TailShed KeyedList

def Stores (e : Op × Reply) (k v : Bytes) : Prop :=
  e = (.put k v, .status true) ∨ e = (.putIfAbsent k v, .status true) ∨ e = (.set k v, .status true)

def Creates (e : Op × Reply) (k : Bytes) : Prop :=
  ∃ v, e = (.put k v, .status true) ∨ e = (.putIfAbsent k v, .status true)

def Deletes (e : Op × Reply) (k : Bytes) : Prop := e = (.delete k, .status true)

theorem Stores.key_eq {op : Op} {r : Reply} {k v : Bytes} (h : Stores (op, r) k v) : op.key = k := by
  rcases h with he | he | he <;> cases he <;> rfl

theorem quiet_call {op : Op} {r : Reply} (h : r ≠ .status true) (k : Bytes) :
    (∀ u, ¬ Stores (op, r) k u) ∧ ¬ Deletes (op, r) k := by
  constructor
  · rintro u (he | he | he) <;> exact h (congrArg Prod.snd he)
  · intro he
    exact h (congrArg Prod.snd he)

/-- `FreeSpace` may stop once these nodes are gone: the `int` test of its loop
fails. -/
def Store.RoomWithout (s : Store) (x : Int32) (dropped : List Node) : Prop :=
  s.currentSize - narrow (weight Node.size dropped) + x ≤ s.maxSize

/-- A cut of `_lru` behind which lies the shortest tail that makes room. -/
structure Store.Cut (s : Store) (x : Int32) (kept dropped : List Node) : Prop where
  split : s.lru = kept ++ dropped
  enough : s.RoomWithout x dropped
  least : ∀ shorter, shorter <:+ dropped → shorter ≠ dropped → ¬ s.RoomWithout x shorter

theorem Store.roomWithout_nil {s : Store} {x : Int32} :
    s.RoomWithout x [] ↔ ¬ s.currentSize + x > s.maxSize := by
  simp [Store.RoomWithout, Int32.sub_zero, Int32.not_lt]

theorem Store.cut_self {s : Store} {x : Int32} (h : ¬ s.currentSize + x > s.maxSize) :
    s.Cut x s.lru [] where
  split := by simp
  enough := Store.roomWithout_nil.mpr h
  least shorter hs hne := absurd (List.suffix_nil.mp hs) hne

/-- Whatever the sizes are, `FreeSpace` cuts off the shortest tail that makes
room. -/
theorem Store.freeSpace_cut {s t : Store} {x : Int32} (h : s.freeSpace x = some t) :
    ∃ kept dropped, s.Cut x kept dropped ∧ t = s.keep kept := by
  unfold Store.freeSpace at h
  obtain ⟨l, hl⟩ : ∃ l, s.lru = l := ⟨_, rfl⟩
  rw [hl] at h
  induction l using List.reverseRecOn generalizing s with
  | nil =>
    simp only [List.length_nil, Store.freeSpaceLoop] at h
    split at h
    next => cases h
    next hroom =>
      cases h
      exact ⟨t.lru, [], Store.cut_self hroom, t.keep_self.symm⟩
  | append_singleton front last ih =>
    simp only [List.length_append, List.length_singleton, Store.freeSpaceLoop] at h
    split at h
    next hfull =>
      have ht := Store.evictBack_concat hl
      rw [ht, Option.bind_eq_bind, Option.bind_some] at h
      obtain ⟨kept, dropped, hcut, rfl⟩ := ih h rfl
      have hsame : ∀ tail : List Node,
          Store.RoomWithout { s with
            currentSize := s.currentSize - narrow last.size
            cacheMap := Function.update s.cacheMap last.key none
            lru := front } x tail ↔ s.RoomWithout x (tail ++ [last]) := by
        intro tail
        have hc : s.currentSize - narrow last.size - narrow (weight Node.size tail) =
            s.currentSize - narrow ((weight Node.size (tail ++ [last]) : Nat) : Int) := by
          rw [weight_append, weight_cons, weight_nil, Nat.add_zero, Int.natCast_add, narrow_add]
          grind
        simp only [Store.RoomWithout, hc]
      refine ⟨kept, dropped ++ [last], ⟨?_, (hsame dropped).mp hcut.enough, ?_⟩,
        Store.keep_evictBack hl ht ⟨dropped, hcut.split.symm⟩⟩
      · rw [hl, ← List.append_assoc, ← hcut.split]
      · intro shorter hs hne
        rcases List.suffix_concat_iff.mp hs with rfl | ⟨tail, rfl, htail⟩
        · exact fun hroom => Store.roomWithout_nil.mp hroom hfull
        · rw [← hsame]
          exact hcut.least tail htail fun he => hne (by rw [he])
    next hroom =>
      cases h
      exact ⟨t.lru, [], Store.cut_self hroom, t.keep_self.symm⟩

/-- What one call can do to the list, whatever the sizes are: put an entry in
front of what its `FreeSpace` keeps, bring an entry to the front, or nothing. -/
inductive Store.Shape (s : Store) : Op → Reply → Store → Prop
  | written {op : Op} {u t : Store} {x : Int32} {kept dropped : List Node} {n : Node}
      (call : s.freeSpaceCall op = some (u, x)) (cut : u.Cut x kept dropped)
      (freed : u.freeSpace x = some (u.keep kept)) (spared : ∀ m ∈ dropped, m.key ≠ op.key)
      (same : u.lru.filter (fun m => m.key != op.key) = s.lru.filter (fun m => m.key != op.key))
      (stores : Stores (op, .status true) op.key op.value) (key : n.key = op.key)
      (lru : t.lru = n :: kept.filter (fun m => m.key != op.key)) (linked : t.Linked) :
      Shape s op (.status true) t
  | found {n : Node} (mem : n ∈ s.lru) : Shape s (.get n.key) (.value (some n.value)) (s.touched n)
  | unchanged {op : Op} {r : Reply} (fails : r = .status false ∨ r = .value none)
      (call : s.freeSpaceCall op = none) : Shape s op r s

theorem Store.Linked.insert_shape {s u : Store} (h : s.Linked) {op : Op} {x : Int32}
    (hm : s.cacheMap op.key = none) (hcall : s.freeSpaceCall op = some (s, x))
    (hst : Stores (op, .status true) op.key op.value) (hf : s.freeSpace x = some u) :
    s.Shape op (.status true) (u.pushFront op.key op.value) := by
  obtain ⟨kept, dropped, hcut, rfl⟩ := Store.freeSpace_cut hf
  have hpre : kept <+: s.lru := ⟨dropped, hcut.split.symm⟩
  have habsent : (s.keep kept).cacheMap op.key = none := by simp [Store.keep, hm]
  have hothers : ∀ n ∈ s.lru, (n.key != op.key) = true :=
    List.filter_eq_self.mp (h.filter_absent hm)
  have hsame : kept.filter (fun m => m.key != op.key) = kept :=
    List.filter_eq_self.mpr fun n hn => hothers n (hpre.subset hn)
  have hspared : ∀ m ∈ dropped, m.key ≠ op.key := fun m hmem => by
    simpa using hothers m (by rw [hcut.split]; exact List.mem_append_right _ hmem)
  refine .written (n := ⟨s.nextAddress, op.key, op.value⟩) hcall hcut hf hspared rfl hst rfl ?_
    ((h.keep hpre).pushFront op.value habsent)
  rw [hsame]
  rfl

theorem Store.Linked.overwrite_shape {s u w : Store} (h : s.Linked) {op : Op} {n : Node}
    (hn : n ∈ s.lru) (hk : n.key = op.key) {x : Int32}
    (hcall : s.freeSpaceCall op = some (s.touched n, x))
    (hst : Stores (op, .status true) op.key op.value) (hf : (s.touched n).freeSpace x = some u)
    (hw : u.assignFront op.value = some w) (c : Int32) :
    s.Shape op (.status true) { w with currentSize := c } := by
  obtain ⟨all, dropped, hcut, rfl⟩ := Store.freeSpace_cut hf
  have hpre : all <+: (s.touched n).lru := ⟨dropped, hcut.split.symm⟩
  cases all with
  | nil => simp [Store.assignFront, Store.keep] at hw
  | cons n' kept =>
    obtain ⟨rfl, hkept⟩ := List.cons_prefix_cons.mp hpre
    simp only [Store.assignFront, Store.keep, Option.some.injEq] at hw
    subst hw
    have hne : ∀ m ∈ kept, (m.key != op.key) = true := fun m hm => by
      have := (List.mem_filter.mp (hkept.subset hm)).2
      rwa [hk] at this
    have hspared : ∀ m ∈ dropped, m.key ≠ op.key := fun m hmem he => by
      have hnodup := (h.touched hn).keys_nodup
      rw [hcut.split, List.map_append, List.nodup_append] at hnodup
      exact hnodup.2.2 n'.key (List.mem_map_of_mem List.mem_cons_self) m.key
        (List.mem_map_of_mem hmem) (hk.trans he.symm)
    refine .written (n := { n' with value := op.value }) hcall hcut hf hspared ?_ hst hk ?_
      (((h.touched hn).keep hpre).assign op.value c rfl)
    · simp [Store.touched, hk]
    · have hsame : (n' :: kept).filter (fun m => m.key != op.key) = kept := by
        rw [List.filter_cons, if_neg (by simp [hk])]
        exact List.filter_eq_self.mpr hne
      rw [hsame]

theorem Store.Linked.splice {s : Store} (h : s.Linked) {k : Bytes} {a : Nat}
    (hm : s.cacheMap k = some a) :
    ∃ n ∈ s.lru, n.key = k ∧ s.deref a = some n ∧ s.spliceFront a = some (s.touched n) := by
  obtain ⟨n, hn, hk, hderef, hsplice, _⟩ := h.locate hm
  exact ⟨n, hn, hk, hderef, hsplice⟩

/-- While the list is not empty, the node that was spliced is its front. -/
theorem Store.Linked.front_touched {s u : Store} (h : s.Linked) {n : Node} (hn : n ∈ s.lru)
    {x : Int32} (hf : (s.touched n).freeSpace x = some u) (hne : u.lru ≠ []) :
    u.cacheMap n.key = some n.address ∧ u.deref n.address = some n := by
  obtain ⟨kept, dropped, hcut, rfl⟩ := Store.freeSpace_cut hf
  have hpre : kept <+: (s.touched n).lru := ⟨dropped, hcut.split.symm⟩
  have hlinked := (h.touched hn).keep hpre
  obtain ⟨first, rest, hkept⟩ := List.exists_cons_of_ne_nil (show kept ≠ [] from hne)
  subst hkept
  obtain ⟨rfl, _⟩ := List.cons_prefix_cons.mp hpre
  refine ⟨(hlinked.map_iff _ _).mpr ⟨first, List.mem_cons_self, rfl, rfl⟩, ?_⟩
  simp [Store.deref, Store.keep]

/-- All that a call can be to a store whose list and map agree, with its outcome in
terms of its `FreeSpace`. -/
inductive Store.Acts (s : Store) : Op → Prop
  | inserts {op : Op} {x : Int32} (absent : s.cacheMap op.key = none)
      (call : s.freeSpaceCall op = some (s, x)) (stores : Stores (op, .status true) op.key op.value)
      (step : s.step op =
        (s.freeSpace x).bind fun u => some (u.pushFront op.key op.value, .status true)) : Acts s op
  | overwrites {op : Op} {x : Int32} {n : Node} (mem : n ∈ s.lru) (key : n.key = op.key)
      (present : s.cacheMap op.key = some n.address)
      (call : s.freeSpaceCall op = some (s.touched n, x))
      (stores : Stores (op, .status true) op.key op.value) (added : Int32)
      (step : s.step op = ((s.touched n).freeSpace x).bind fun u =>
        (u.assignFront op.value).map fun w =>
          ({ w with currentSize := w.currentSize + added }, .status true)) : Acts s op
  | finds {n : Node} (mem : n ∈ s.lru)
      (step : s.step (.get n.key) = some (s.touched n, .value (some n.value))) :
      Acts s (.get n.key)
  | fails {op : Op} {r : Reply} (quiet : r = .status false ∨ r = .value none)
      (call : s.freeSpaceCall op = none) (step : s.step op = some (s, r)) : Acts s op
  | hits {k : Bytes} (present : s.cacheMap k ≠ none) : Acts s (.delete k)

theorem Store.Linked.put_acts {s : Store} (h : s.Linked) (k v : Bytes) : s.Acts (.put k v) := by
  by_cases hbig : k.length + v.length > sizeT s.maxSize
  · exact .fails (Or.inl rfl) (by simp [Store.freeSpaceCall, hbig])
      (by simp [Store.step, Store.put, hbig])
  · cases hm : s.cacheMap k with
    | none =>
      have hcall : s.freeSpaceCall (.put k v) = some (s, narrow (k.length + v.length : Nat)) := by
        simp only [Store.freeSpaceCall, if_neg hbig, hm]
      refine .inserts hm hcall (Or.inl rfl) ?_
      simp only [Store.step, Store.put, if_neg hbig, hm]
      exact Option.map_bind
    | some a =>
      obtain ⟨n, hn, hk, hderef, hsplice⟩ := h.splice hm
      have hcall : s.freeSpaceCall (.put k v) =
          some (s.touched n, narrow ((k.length + v.length : Nat) - n.size)) := by
        simp only [Store.freeSpaceCall, if_neg hbig, hm, hderef, hsplice, Option.bind_eq_bind,
          Option.bind_some, Option.pure_def]
      refine .overwrites hn hk ?_ hcall (Or.inl rfl) 0 ?_
      · exact (h.map_iff _ _).mpr ⟨n, hn, hk, rfl⟩
      · simp only [Store.step, Store.put, if_neg hbig, hm, hderef, hsplice, Option.bind_eq_bind,
          Option.bind_some, Option.map_bind]
        refine Option.bind_congr fun u _ => ?_
        cases hw : u.assignFront v <;> simp [hw, Op.value]

theorem Store.putIfAbsent_acts (s : Store) (k v : Bytes) : s.Acts (.putIfAbsent k v) := by
  by_cases hbig : k.length + v.length > sizeT s.maxSize
  · exact .fails (Or.inl rfl) (by simp [Store.freeSpaceCall, hbig])
      (by simp [Store.step, Store.putIfAbsent, hbig])
  · cases hm : s.cacheMap k with
    | none =>
      have hcall : s.freeSpaceCall (.putIfAbsent k v) =
          some (s, narrow (k.length + v.length : Nat)) := by
        simp only [Store.freeSpaceCall, if_neg hbig, hm]
      refine .inserts hm hcall (Or.inr (Or.inl rfl)) ?_
      simp only [Store.step, Store.putIfAbsent, if_neg hbig, hm]
      exact Option.map_bind
    | some a =>
      exact .fails (Or.inl rfl) (by simp [Store.freeSpaceCall, hm])
        (by simp [Store.step, Store.putIfAbsent, hm])

theorem Store.Linked.set_acts {s : Store} (h : s.Linked) (k v : Bytes) : s.Acts (.set k v) := by
  by_cases hbig : k.length + v.length > sizeT s.maxSize
  · exact .fails (Or.inl rfl) (by simp [Store.freeSpaceCall, hbig])
      (by simp [Store.step, Store.set, hbig])
  · cases hm : s.cacheMap k with
    | none =>
      exact .fails (Or.inl rfl) (by simp [Store.freeSpaceCall, hm])
        (by simp [Store.step, Store.set, hm])
    | some a =>
      obtain ⟨n, hn, rfl, hderef, hsplice⟩ := h.splice hm
      have hcall : s.freeSpaceCall (.set n.key v) =
          some (s.touched n, narrow ((n.key.length + v.length : Nat) - n.size)) := by
        simp only [Store.freeSpaceCall, if_neg hbig, hm, hderef, hsplice, Option.bind_eq_bind,
          Option.bind_some, Option.pure_def]
      refine .overwrites hn rfl ?_ hcall (Or.inr (Or.inr rfl))
        (narrow (n.key.length + v.length : Nat) - narrow n.value.length) ?_
      · exact (h.map_iff _ _).mpr ⟨n, hn, rfl, rfl⟩
      · simp only [Store.step, Store.set, if_neg hbig, hm, hderef, hsplice, Option.bind_eq_bind,
          Option.bind_some, Option.map_bind]
        refine Option.bind_congr fun u hu => ?_
        cases hl : u.lru with
        | nil => cases hmap : u.cacheMap n.key <;> simp [hmap, Store.deref, Store.assignFront, hl]
        | cons front rest =>
          -- behind the eviction the map still leads to the node that was spliced
          obtain ⟨hmap, hfront⟩ := h.front_touched hn hu (by simp [hl])
          have hcount : ∀ a b c : Int32, a - b + c = a + (c - b) := by grind
          simp [hmap, hfront, hl, Store.assignFront, Op.value, hcount]

theorem Store.Linked.acts {s : Store} (h : s.Linked) (op : Op) : s.Acts op := by
  cases op with
  | put k v => exact h.put_acts k v
  | putIfAbsent k v => exact s.putIfAbsent_acts k v
  | set k v => exact h.set_acts k v
  | delete k =>
    by_cases hm : s.cacheMap k = none
    · exact .fails (Or.inl rfl) rfl (by simp [Store.step, Store.delete, hm])
    · exact .hits hm
  | get k =>
    cases hm : s.cacheMap k with
    | none => exact .fails (Or.inr rfl) rfl (by simp [Store.step, Store.get, hm])
    | some a =>
      obtain ⟨n, hn, rfl, _, hsplice⟩ := h.splice hm
      exact .finds hn (by simp [Store.step, Store.get, hm, hsplice, Store.touched])

theorem Store.Linked.shape {s t : Store} (h : s.Linked) {op : Op} {r : Reply}
    (hs : s.step op = some (t, r)) : s.Shape op r t := by
  cases h.acts op with
  | inserts absent call stores step =>
    rw [step] at hs
    obtain ⟨u, hf, he⟩ := Option.bind_eq_some_iff.mp hs
    cases he
    exact h.insert_shape absent call stores hf
  | overwrites mem key present call stores added step =>
    rw [step] at hs
    obtain ⟨u, hf, hrest⟩ := Option.bind_eq_some_iff.mp hs
    obtain ⟨w, hw, he⟩ := Option.map_eq_some_iff.mp hrest
    cases he
    exact h.overwrite_shape mem key call stores hf hw _
  | finds mem step =>
    cases step.symm.trans hs
    exact .found mem
  | fails quiet call step =>
    cases step.symm.trans hs
    exact .unchanged quiet call
  | hits present =>
    obtain ⟨a, hm⟩ := Option.ne_none_iff_exists'.mp present
    simp [Store.step, Store.delete, hm] at hs

theorem Store.Shape.linked {s t : Store} {op : Op} {r : Reply} (h : s.Linked)
    (hs : s.Shape op r t) : t.Linked := by
  cases hs with
  | written _ _ _ _ _ _ _ _ linked => exact linked
  | found mem => exact h.touched mem
  | unchanged => exact h

theorem Store.Reach.linked {m : Int32} {history : List (Op × Reply)} {s : Store}
    (reach : Store.Reach m history s) : s.Linked :=
  reach.invariant (Store.fresh_linked m) fun _ _ _ _ h hs => (h.shape hs).linked h

end Afina
