import Afina.StoreOutcome

namespace Afina

/-- List and map hold the same keys, each once, and every iterator denotes the
node of its key. -/
structure Store.Represents (s : Store) : Prop where
  distinct : (s.lru.map Node.key).Nodup
  keys : ∀ k, (∃ it, s.cacheMap k = some it) ↔ k ∈ s.lru.map Node.key
  iterators : ∀ k it, s.cacheMap k = some it → ∃ n, s.deref it = some n ∧ n.key = k

theorem Store.Linked.represents {s : Store} (h : s.Linked) : s.Represents where
  distinct := h.keys_nodup
  keys k := by
    constructor
    · rintro ⟨it, hm⟩
      obtain ⟨n, hn, hk, _⟩ := (h.map_iff k it).mp hm
      exact List.mem_map.mpr ⟨n, hn, hk⟩
    · intro hk
      obtain ⟨n, hn, hk⟩ := List.mem_map.mp hk
      exact ⟨n.address, (h.map_iff k n.address).mpr ⟨n, hn, hk, rfl⟩⟩
  iterators k it hm := by
    obtain ⟨n, _, hk, hderef, _⟩ := h.locate hm
    exact ⟨n, hderef, hk⟩

/-- For every limit, calls none of which takes the front or the back of an empty list
can be run, with the representation invariant after every call and after every pass of
the loop of `FreeSpace` that the next call makes, if and only if no `Delete` hits. -/
theorem store_represents {m : Int32} {calls : List Op} (hempty : NoneTakesEmpty m calls) :
    ((PartialRun.run Store.step (Store.fresh m) calls).isSome ∧
        ∀ history s, Store.Reach m history s → history.map Prod.fst <+: calls →
          s.Represents ∧ ∀ op t x u, s.freeSpaceCall op = some (t, x) → t.Passes x u →
            u.Represents) ↔ DeletesMiss m calls := by
  rw [run_isSome_iff_deletesMiss, and_iff_right hempty]
  refine and_iff_left fun history s reach _ => ?_
  have hlinked := Store.Reach.linked reach
  exact ⟨hlinked.represents, fun op t x u hcall hpass =>
    ((hlinked.freeSpaceCall hcall).passes hpass).represents⟩

/-- The `Delete` finds its key and has no result. -/
theorem delete_hit_unrepresented :
    let calls : List Op := [.put (text "aaaaaaaaaaaaaaaaaaaa") (text "1"),
      .delete (text "aaaaaaaaaaaaaaaaaaaa")]
    NoneTakesEmpty 1000 calls ∧
      ¬ ((PartialRun.run Store.step (Store.fresh 1000) calls).isSome ∧
        ∀ history s, Store.Reach 1000 history s → history.map Prod.fst <+: calls →
          s.Represents ∧ ∀ op t x u, s.freeSpaceCall op = some (t, x) → t.Passes x u →
            u.Represents) := by
  intro calls
  have hdelete : (PartialRun.run Store.step (Store.fresh 1000) calls).isSome = false := by decide
  refine ⟨noneTakesEmpty_of_each (by decide) (by decide), ?_⟩
  rintro ⟨hsome, _⟩
  cases hdelete.symm.trans hsome

theorem store_represents_eviction :
    let calls : List Op := [.put (text "a") (text "12"), .put (text "b") (text "34"),
      .delete (text "d"), .put (text "c") (text "56")]
    NoneTakesEmpty 9 calls ∧ DeletesMiss 9 calls ∧
      ∃ history s t x u, Store.Reach 9 history s ∧ history.map Prod.fst = calls ∧
        s.freeSpaceCall (.set (text "a") (text "1234")) = some (t, x) ∧ t.Passes x u ∧
        u.lru.map Node.key = [text "a", text "c"] ∧ s.Represents ∧ u.Represents := by
  intro calls
  have hempty : NoneTakesEmpty 9 calls := noneTakesEmpty_of_each (by decide) (by decide)
  have hmiss : DeletesMiss 9 calls := PartialRun.holds_of_each (by decide)
  have hrun : (PartialRun.run Store.step (Store.fresh 9) calls).isSome := by decide
  have hpass : ((PartialRun.run Store.step (Store.fresh 9) calls).bind fun r =>
      (r.1.freeSpaceCall (.set (text "a") (text "1234"))).bind fun c => c.1.evictBack.map fun u =>
        (decide (c.1.currentSize + c.2 > c.1.maxSize), u.lru.map Node.key)) =
      some (true, [text "a", text "c"]) := by decide
  obtain ⟨⟨s, history⟩, hrun⟩ := Option.isSome_iff_exists.mp hrun
  rw [hrun, Option.bind_some] at hpass
  obtain ⟨⟨t, x⟩, hcall, hpass⟩ := Option.bind_eq_some_iff.mp hpass
  obtain ⟨u, hevict, hu⟩ := Option.map_eq_some_iff.mp hpass
  obtain ⟨htest, hkeys⟩ := Prod.mk.inj hu
  have reach : Store.Reach 9 history s := PartialRun.run_reach hrun
  have hpasses : t.Passes x u := .pass (.start t) (of_decide_eq_true htest) hevict
  have hcalls := PartialRun.run_calls hrun
  obtain ⟨hs, hu⟩ := ((store_represents hempty).mpr hmiss).2 history s reach (by rw [hcalls])
  exact ⟨hempty, hmiss, history, s, t, x, u, reach, hcalls, hcall, hpasses, hkeys, hs,
    hu _ _ _ _ hcall hpasses⟩

end Afina
