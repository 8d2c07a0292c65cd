import Afina.StoreCapacity
import Afina.StoreReference
import Afina.StoreRepresentation

namespace Afina

open TailShed KeyedList

/-- `PutIfAbsent`, `Get`, and `Put` of a key that is absent. -/
def Store.Inserts (s : Store) : Op → Prop
  | .put k _ => s.cacheMap k = none
  | .putIfAbsent _ _ => True
  | .set _ _ => False
  | .delete _ => False
  | .get _ => True

inductive Store.Inserting (m : Int32) : List (Op × Reply) → Store → Prop
  | start : Inserting m [] (Store.fresh m)
  | next {history s op r t} : Inserting m history s → s.Inserts op → s.step op = some (t, r) →
      Inserting m (history ++ [(op, r)]) t

theorem Store.Inserting.reach {m : Int32} {history : List (Op × Reply)} {s : Store}
    (run : Store.Inserting m history s) : Store.Reach m history s := by
  induction run with
  | start => exact .start
  | next _ _ hs ih => exact .next ih hs

/-- What the call computes with sizes in 32 bits is what unbounded integers
give: the comparison with the limit, the cast of the new size, every test of the
loop of `FreeSpace` and with it the decision to evict, every entry taken off the
counter, and the new entry added to it. -/
structure Store.CallExact (s : Store) (op : Op) : Prop where
  limit : (sizeT s.maxSize : Int) = s.maxSize.toInt
  cast : ∀ t x, s.freeSpaceCall op = some (t, x) → x.toInt = entrySize (op.key, op.value)
  test : ∀ t x u, s.freeSpaceCall op = some (t, x) → t.Passes x u →
    (u.currentSize + x).toInt = u.currentSize.toInt + x.toInt
  decides : ∀ t x u, s.freeSpaceCall op = some (t, x) → t.Passes x u →
    (u.currentSize + x > u.maxSize ↔
      (u.bytesHeld + entrySize (op.key, op.value) : Int) > u.maxSize.toInt)
  evicts : ∀ t x u last, s.freeSpaceCall op = some (t, x) → t.Passes x u →
    u.currentSize + x > u.maxSize → u.lru.getLast? = some last →
    (narrow last.size).toInt = last.size ∧
      (u.currentSize - narrow last.size).toInt = u.currentSize.toInt - last.size
  adds : ∀ t x u, s.freeSpaceCall op = some (t, x) → t.freeSpace x = some u →
    (u.pushFront op.key op.value).currentSize.toInt =
      u.currentSize.toInt + entrySize (op.key, op.value)

/-- An insertion after which, without any eviction, the bytes held would still
be an `int`. -/
def Store.RoomInInt (s : Store) (op : Op) : Prop :=
  ∀ t x, s.freeSpaceCall op = some (t, x) → s.bytesHeld + entrySize (op.key, op.value) < 2 ^ 31

/-- The only call of `FreeSpace` is the one before the insertion of a key. -/
theorem Store.Inserts.call {s t : Store} {op : Op} {x : Int32} (h : s.Inserts op)
    (hcall : s.freeSpaceCall op = some (t, x)) :
    t = s ∧ x = narrow (entrySize (op.key, op.value)) ∧
      entrySize (op.key, op.value) ≤ sizeT s.maxSize ∧ s.cacheMap op.key = none ∧
      (op = .put op.key op.value ∨ op = .putIfAbsent op.key op.value) := by
  cases op with
  | put k v =>
    have hm : s.cacheMap k = none := h
    simp only [Store.freeSpaceCall, hm] at hcall
    split at hcall
    next => cases hcall
    next hsmall =>
      cases hcall
      exact ⟨rfl, rfl, Nat.le_of_not_lt hsmall, hm, Or.inl rfl⟩
  | putIfAbsent k v =>
    simp only [Store.freeSpaceCall] at hcall
    split at hcall
    next => cases hcall
    next hsmall =>
      split at hcall
      next hm =>
        cases hcall
        exact ⟨rfl, rfl, Nat.le_of_not_lt hsmall, hm, Or.inr rfl⟩
      next => cases hcall
  | set k v => exact h.elim
  | delete k => exact h.elim
  | get k => cases hcall

/-- What the passes of a loop that started with a right counter keep. -/
structure Store.Shrunk (s u : Store) : Prop where
  accounted : u.Accounted
  held : u.bytesHeld ≤ s.bytesHeld
  lru : u.lru <+: s.lru
  limit : u.maxSize = s.maxSize

theorem Store.bytesHeld_of_last {u : Store} {last : Node} (h : u.lru.getLast? = some last) :
    u.bytesHeld = (u.lru.dropLast.map Node.size).sum + last.size := by
  have hl := List.dropLast_append_getLast? last h
  rw [Store.bytesHeld]
  conv_lhs => rw [← hl]
  simp

theorem Store.Shrunk.last {s u : Store} (h : s.Shrunk u) (hvalid : s.Valid) {last : Node}
    (hlast : u.lru.getLast? = some last) :
    (narrow last.size).toInt = last.size ∧
      (u.currentSize - narrow last.size).toInt = u.currentSize.toInt - last.size := by
  have hmax := Int32.toInt_lt s.maxSize
  have hfits := hvalid.fits last (h.lru.subset (List.mem_of_getLast? hlast))
  have hheld := Store.bytesHeld_of_last hlast
  have hnarrow : (narrow (last.size : Int)).toInt = last.size := toInt_narrow (by omega) (by omega)
  have hacc := h.accounted
  have hcur := Int32.toInt_lt u.currentSize
  unfold Store.Accounted at hacc
  refine ⟨hnarrow, ?_⟩
  rw [toInt_sub_exact (by omega) (by omega), hnarrow]

theorem Store.Shrunk.evictBack {s u w : Store} (h : s.Shrunk u) (hvalid : s.Valid)
    (hw : u.evictBack = some w) : s.Shrunk w := by
  obtain ⟨last, hlast, hpure⟩ := Option.bind_eq_some_iff.mp hw
  cases hpure
  have hheld := Store.bytesHeld_of_last hlast
  have hless : ((u.lru.dropLast).map Node.size).sum + last.size = u.bytesHeld := hheld.symm
  have hacc := h.accounted
  have hle := h.held
  unfold Store.Accounted at hacc
  refine ⟨?_, ?_, (List.dropLast_prefix _).trans h.lru, h.limit⟩
  · simp only [Store.Accounted, (h.last hvalid hlast).2, Store.bytesHeld]
    omega
  · simp only [Store.bytesHeld] at hless hle ⊢
    omega

theorem Store.Shrunk.passes {s u : Store} (hvalid : s.Valid) (hacc : s.Accounted) {x : Int32}
    (h : s.Passes x u) : s.Shrunk u := by
  induction h with
  | start => exact ⟨hacc, Nat.le_refl _, List.prefix_refl _, rfl⟩
  | pass _ _ evict ih => exact ih.evictBack hvalid evict

/-- From a right counter, a call of these kinds is exact if and only if the bytes
that it would hold without eviction are an `int`. -/
theorem Store.Inserts.exact_iff {s : Store} {op : Op} (h : s.Inserts op) (hvalid : s.Valid)
    (hacc : s.Accounted) : s.CallExact op ↔ s.RoomInInt op := by
  constructor
  · intro hexact t x hcall
    obtain ⟨rfl, _⟩ := h.call hcall
    have htest := hexact.test t x t hcall (.start t)
    have hcast := hexact.cast t x hcall
    have hlt := Int32.toInt_lt (t.currentSize + x)
    unfold Store.Accounted at hacc
    omega
  · intro hroom
    have hlimit := sizeT_of_nonneg hvalid.limit_nonneg
    have hmax := Int32.toInt_lt s.maxSize
    have hcast : ∀ t x, s.freeSpaceCall op = some (t, x) →
        x.toInt = entrySize (op.key, op.value) := by
      intro t x hcall
      obtain ⟨_, hx, hsmall, _⟩ := h.call hcall
      rw [hx]
      exact toInt_narrow (by omega) (by omega)
    have hsum : ∀ t x u, s.freeSpaceCall op = some (t, x) → s.Shrunk u →
        (u.currentSize + x).toInt = u.bytesHeld + entrySize (op.key, op.value) := by
      intro t x u hcall hu
      have hbound := hroom t x hcall
      have hx := hcast t x hcall
      have hheld := hu.held
      have hcount := hu.accounted
      unfold Store.Accounted at hcount
      rw [toInt_add_exact (by omega) (by omega), hcount, hx]
    have hshrunk : ∀ t x u, s.freeSpaceCall op = some (t, x) → t.Passes x u → s.Shrunk u := by
      intro t x u hcall hu
      obtain ⟨rfl, _⟩ := h.call hcall
      exact Store.Shrunk.passes hvalid hacc hu
    refine ⟨hlimit, hcast, fun t x u hcall hu => ?_, fun t x u hcall hu => ?_,
      fun t x u last hcall hu _ hlast => (hshrunk t x u hcall hu).last hvalid hlast,
      fun t x u hcall hu => ?_⟩
    · have hcount := (hshrunk t x u hcall hu).accounted
      unfold Store.Accounted at hcount
      rw [hsum t x u hcall (hshrunk t x u hcall hu), hcount, hcast t x hcall]
    · rw [gt_iff_lt, Int32.lt_iff_toInt_lt, hsum t x u hcall (hshrunk t x u hcall hu)]
    · have hu' := hshrunk t x u hcall (Store.freeSpace_passes hu)
      have hcount := hu'.accounted
      unfold Store.Accounted at hcount
      obtain ⟨_, hx, _⟩ := h.call hcall
      have hnew := hsum t x u hcall hu'
      rw [hx] at hnew
      rw [hcount, ← hnew]
      rfl

theorem Store.Inserts.room_of_request {s : Store} {op : Op} (h : s.Inserts op) (hvalid : s.Valid)
    (hroom : s.RoomInInt op) {plan : Int32 × Int32} (hr : s.cache.request op = some plan) :
    s.cache.contents op.key = none ∧ s.cache.total + entrySize (op.key, op.value) < 2 ^ 31 := by
  rw [Store.total_cache]
  rcases hvalid.freeSpaceCall_of_some hr with ⟨hm, hcall⟩ | ⟨n, _, _, hm, hcall⟩
  · exact ⟨hvalid.linked.contents_of_none hm, hroom _ _ hcall⟩
  · obtain ⟨_, _, _, hnone, _⟩ := h.call hcall
    simp [hm] at hnone

theorem Store.Inserts.keepsCount {s : Store} {op : Op} (h : s.Inserts op) (hvalid : s.Valid)
    (hcounts : s.cache.Counts) (hroom : s.RoomInInt op) : s.cache.KeepsCount op := by
  unfold Cache.Counts at hcounts
  cases op with
  | put k v =>
    intro hadm
    have hc : s.cache.contents k = none := hvalid.linked.contents_of_none h
    have hfit := (h.room_of_request hvalid hroom
      (by simp only [Cache.request, if_pos hadm, hc]; rfl)).2
    simp only [Op.key, Op.value] at hfit
    exact ⟨fun _ => by omega, by simp [hc]⟩
  | putIfAbsent k v =>
    intro hadm hc
    have hfit := (h.room_of_request hvalid hroom
      (by simp only [Cache.request, if_pos hadm, hc]; rfl)).2
    simp only [Op.key, Op.value] at hfit
    omega
  | set k v => exact h.elim
  | delete k => exact h.elim
  | get k => trivial

theorem Store.Inserts.noShortTail {s : Store} {op : Op} (h : s.Inserts op) (hvalid : s.Valid)
    (hcounts : s.cache.Counts) (hroom : s.RoomInInt op) : s.cache.NoShortTail op := by
  rintro ⟨extra, change⟩ hr tail _ hexcess
  obtain ⟨hc, hfit⟩ := h.room_of_request hvalid hroom hr
  have htotal := hvalid.sound.total_eq op.key
  rw [Cache.own_of_none hc] at htotal
  rw [hvalid.sound.excess_of_counts hcounts hr, toInt_narrow (by omega) (by omega)] at hexcess
  unfold Cache.overrun
  omega

theorem Store.Inserts.deleteMisses {s : Store} {op : Op} (h : s.Inserts op) :
    s.DeleteMisses op := by
  cases op with
  | delete k => exact h.elim
  | _ => trivial

theorem Store.Accounted.counts {s : Store} (h : s.Accounted) : s.cache.Counts := by
  rw [Cache.Counts, Store.total_cache]
  exact h

/-- One call: with room in an `int` the counter stays right, and so does the
bound on the bytes held. -/
theorem Store.Inserts.step {s t : Store} {op : Op} {r : Reply} (h : s.Inserts op)
    (hvalid : s.Valid) (hacc : s.Accounted) (hroom : s.RoomInInt op)
    (hs : s.step op = some (t, r)) : t.Accounted ∧ (s.WithinLimit → t.WithinLimit) := by
  have hcounts := hacc.counts
  have hstep := hvalid.cache_step hs
  constructor
  · have hnext := Cache.step_forall_of_exists ((hvalid.sound.keepsCount_iff hcounts op).mpr
      (h.keepsCount hvalid hcounts hroom)) _ _ hstep
    rw [Cache.Counts, Store.total_cache] at hnext
    exact hnext
  · intro hwithin
    have hmakes := ((Cache.step_isSome_iff s.cache op).mp (by rw [hstep]; rfl)).1
    have hnext := Cache.step_forall_of_exists
      ((hvalid.sound.within_iff (by rw [Store.total_cache]; exact hwithin) op).mpr ⟨hmakes,
        h.noShortTail hvalid hcounts hroom, (hvalid.linked.deleteMisses_iff op).mpr h.deleteMisses⟩)
      _ _ hstep
    rw [Store.total_cache] at hnext
    exact hnext

/-- A limit below half of the `int` range leaves room for every insertion. -/
theorem Store.roomInInt_of_limit {s : Store} {op : Op} (h : s.Inserts op) (hvalid : s.Valid)
    (hwithin : s.WithinLimit) (hm : s.maxSize.toInt < 2 ^ 30) : s.RoomInInt op := by
  intro t x hcall
  obtain ⟨_, _, hsmall, _⟩ := h.call hcall
  have hlimit := sizeT_of_nonneg hvalid.limit_nonneg
  unfold Store.WithinLimit at hwithin
  omega

theorem Store.fresh_accounted (m : Int32) : (Store.fresh m).Accounted := by
  simp [Store.Accounted, Store.fresh, Store.bytesHeld]

theorem Store.Inserting.within {m : Int32} (hm : 0 ≤ m) (hm' : m.toInt < 2 ^ 30)
    {history : List (Op × Reply)} {s : Store} (run : Store.Inserting m history s) :
    s.Accounted ∧ s.WithinLimit := by
  induction run with
  | start => exact ⟨Store.fresh_accounted m, (Store.fresh_valid hm).limit_nonneg⟩
  | @next history u op r t run hins hs ih =>
    have hvalid := run.reach.valid hm
    have hroom := Store.roomInInt_of_limit hins hvalid ih.2 (by rw [run.reach.maxSize_eq hm]; exact hm')
    have hstep := hins.step hvalid ih.1 hroom hs
    exact ⟨hstep.1, hstep.2 ih.2⟩

/-- In a run whose calls have room as long as the counter is right, it is right. -/
theorem Store.Inserting.accounted {m : Int32} (hm : 0 ≤ m) {history : List (Op × Reply)}
    {s : Store} (run : Store.Inserting m history s)
    (hroom : ∀ before u op, Store.Inserting m before u → u.Inserts op →
      before.map Prod.fst ++ [op] <+: history.map Prod.fst → u.Accounted → u.RoomInInt op) :
    s.Accounted := by
  induction run with
  | start => exact Store.fresh_accounted m
  | @next history u op r t run hins hs ih =>
    have hpre : history.map Prod.fst ++ [op] <+: (history ++ [(op, r)]).map Prod.fst := by simp
    have hacc := ih fun before w op' hrun hop hp => hroom before w op' hrun hop
      (hp.trans ((List.prefix_append _ _).trans hpre))
    exact (hins.step (run.reach.valid hm) hacc (hroom history u op run hins hpre hacc) hs).1

theorem Store.fresh_put {m : Int32} {k v : Bytes} (h : (entrySize (k, v) : Int) ≤ m.toInt) :
    (Store.fresh m).step (.put k v) = some ((Store.fresh m).pushFront k v, .status true) := by
  have hmax := Int32.toInt_lt m
  have hlimit := sizeT_of_nonneg (x := m) (by omega)
  simp only [entrySize] at h
  have hsmall : ¬ k.length + v.length > sizeT (Store.fresh m).maxSize := by
    simp only [Store.fresh]
    omega
  have hroom : ¬ (0 : Int32) + narrow ((k.length + v.length : Nat) : Int) > m := by
    rw [Int32.zero_add, gt_iff_lt, Int32.lt_iff_toInt_lt, toInt_narrow (by omega) (by omega)]
    exact Int.not_lt.mpr h
  have hfree : (Store.fresh m).freeSpace (narrow ((k.length + v.length : Nat) : Int)) =
      some (Store.fresh m) := if_neg hroom
  have hmap : (Store.fresh m).cacheMap k = none := rfl
  simp only [Store.step, Store.put, if_neg hsmall, hmap, hfree, Option.bind_eq_bind,
    Option.bind_some, Option.pure_def, Option.map_some]

/-- Two entries of half the `int` range each. -/
theorem Store.inserting_half {m : Int32} (h : 2 ^ 30 ≤ m.toInt) {v : Bytes}
    (hlength : v.length = 2 ^ 30 - 1) :
    ∃ s, Store.Inserting m [(.put [97] v, .status true)] s ∧ s.Inserts (.put [98] v) ∧
      s.Accounted ∧ ¬ s.RoomInInt (.put [98] v) := by
  have hsize : ∀ c, entrySize ([c], v) = 2 ^ 30 := fun c => by
    simp only [entrySize, hlength, List.length_singleton]
    omega
  have hfirst : (Store.fresh m).step (.put [97] v) =
      some ((Store.fresh m).pushFront [97] v, .status true) :=
    Store.fresh_put (by rw [hsize]; exact h)
  have hheld : ((Store.fresh m).pushFront [97] v).bytesHeld = 2 ^ 30 := by
    rw [← hsize 97]
    simp [Store.bytesHeld, Store.pushFront, Store.fresh, Node.size, entrySize]
  have habsent : ((Store.fresh m).pushFront [97] v).cacheMap [98] = none := by
    simp [Store.pushFront, Store.fresh]
  refine ⟨_, .next .start (show (Store.fresh m).Inserts (.put [97] v) from rfl) hfirst, habsent,
    ?_, fun hroom => ?_⟩
  · rw [Store.Accounted, hheld]
    have hnew : ([97] : Bytes).length + v.length = 2 ^ 30 := hsize 97
    have hsum : ((Store.fresh m).pushFront [97] v).currentSize = narrow (2 ^ 30 : Nat) := by
      simp only [Store.pushFront, Store.fresh, Int32.zero_add]
      rw [← Int.natCast_add, hnew]
    rw [hsum, toInt_narrow (by omega) (by omega)]
  · have hlimit := sizeT_of_nonneg (x := m) (by omega)
    have hcall : ((Store.fresh m).pushFront [97] v).freeSpaceCall (.put [98] v) =
        some ((Store.fresh m).pushFront [97] v, narrow (([98] : Bytes).length + v.length : Nat)) := by
      have hsmall : ¬ ([98] : Bytes).length + v.length >
          sizeT ((Store.fresh m).pushFront [97] v).maxSize := by
        have hnew := hsize 98
        simp only [entrySize] at hnew
        simp only [Store.pushFront, Store.fresh]
        omega
      simp only [Store.freeSpaceCall, if_neg hsmall, habsent]
    have hover := hroom _ _ hcall
    simp only [Op.key, Op.value, hsize, hheld] at hover
    omega

/-- The sizes are computed exactly in every run if and only if the limit is below
half of the `int` range; and whatever the limit is, in exactly those runs in
which no insertion asks for more than an `int` on top of the bytes held. -/
theorem size_arithmetic_exact {m : Int32} (hm : 0 ≤ m) :
    ((∀ history s, Store.Inserting m history s →
        s.Accounted ∧ ∀ op, s.Inserts op → s.CallExact op) ↔ m.toInt < 2 ^ 30) ∧
    ∀ calls, (∀ history s op, Store.Inserting m history s → s.Inserts op →
        history.map Prod.fst ++ [op] <+: calls → s.CallExact op) ↔
      ∀ history s op, Store.Inserting m history s → s.Inserts op →
        history.map Prod.fst ++ [op] <+: calls → s.RoomInInt op := by
  refine ⟨⟨fun hall => ?_, fun hm' history s run => ?_⟩, fun calls => ⟨fun hall => ?_, fun hall => ?_⟩⟩
  · by_contra hlarge
    obtain ⟨s, run, hins, hacc, hover⟩ := Store.inserting_half (Int.le_of_not_gt hlarge)
      (List.length_replicate (n := 2 ^ 30 - 1) (a := 0))
    exact hover ((hins.exact_iff (run.reach.valid hm) hacc).mp ((hall _ s run).2 _ hins))
  · obtain ⟨hacc, hwithin⟩ := run.within hm hm'
    have hvalid := run.reach.valid hm
    refine ⟨hacc, fun op hins => (hins.exact_iff hvalid hacc).mpr ?_⟩
    exact Store.roomInInt_of_limit hins hvalid hwithin (by rw [run.reach.maxSize_eq hm]; exact hm')
  · intro history s op run hins hpre
    have hacc := run.accounted hm fun before u op' hrun hop hp hu =>
      (hop.exact_iff (hrun.reach.valid hm) hu).mp (hall before u op' hrun hop
        (hp.trans ((List.prefix_append _ _).trans hpre)))
    exact (hins.exact_iff (run.reach.valid hm) hacc).mp (hall history s op run hins hpre)
  · intro history s op run hins hpre
    have hacc := run.accounted hm fun before u op' hrun hop hp _ => hall before u op' hrun hop
      (hp.trans ((List.prefix_append _ _).trans hpre))
    exact (hins.exact_iff (run.reach.valid hm) hacc).mpr (hall history s op run hins hpre)

theorem size_arithmetic_exact_nine :
    (0 : Int32) ≤ 9 ∧ (9 : Int32).toInt < 2 ^ 30 ∧
      ∀ history s, Store.Inserting 9 history s →
        s.Accounted ∧ ∀ op, s.Inserts op → s.CallExact op :=
  ⟨by decide, by decide, (size_arithmetic_exact (by decide)).1.mpr (by decide)⟩

/-- With a limit of 2^30 bytes the test for the second of two such entries
overflows. -/
theorem size_arithmetic_overflows :
    ∃ s, Store.Inserting 1073741824
        [(.put [97] (List.replicate (2 ^ 30 - 1) 0), .status true)] s ∧
      s.Inserts (.put [98] (List.replicate (2 ^ 30 - 1) 0)) ∧
      ¬ s.CallExact (.put [98] (List.replicate (2 ^ 30 - 1) 0)) := by
  obtain ⟨s, run, hins, hacc, hover⟩ := Store.inserting_half (m := 1073741824) (by decide)
    (List.length_replicate (n := 2 ^ 30 - 1) (a := 0))
  have hvalid := run.reach.valid (by decide)
  exact ⟨s, run, hins, fun hexact => hover ((hins.exact_iff hvalid hacc).mp hexact)⟩

end Afina
