import Afina.StoreOutcome

namespace Afina

open TailShed KeyedList

/-- The most recent call that stored under `k` stored `v`, and `k` has not been
deleted since. -/
def LastStored (history : List (Op × Reply)) (k v : Bytes) : Prop :=
  ∃ before e after, history = before ++ e :: after ∧ Stores e k v ∧
    ∀ later ∈ after, (∀ u, ¬ Stores later k u) ∧ ¬ Deletes later k

theorem LastStored.snoc {history : List (Op × Reply)} {k v : Bytes} {e : Op × Reply}
    (h : LastStored history k v) (hs : ∀ u, ¬ Stores e k u) (hd : ¬ Deletes e k) :
    LastStored (history ++ [e]) k v := by
  obtain ⟨before, stored, after, rfl, hst, hafter⟩ := h
  refine ⟨before, stored, after ++ [e], by simp, hst, ?_⟩
  intro later hl
  rcases List.mem_append.mp hl with hl | hl
  · exact hafter later hl
  · rw [List.mem_singleton.mp hl]
    exact ⟨hs, hd⟩

theorem LastStored.of_put (history : List (Op × Reply)) {op : Op} (hop : op = .put op.key op.value) :
    LastStored (history ++ [(op, .status true)]) op.key op.value ∧
      ∃ e ∈ history ++ [(op, .status true)], Creates e op.key :=
  ⟨⟨history, _, [], rfl, Or.inl (by rw [← hop]), by simp⟩,
    (op, .status true), by simp, op.value, Or.inl (by rw [← hop])⟩

/-- What the history says about every visible association. -/
def Explained (history : List (Op × Reply)) (c : Cache) : Prop :=
  ∀ k v, c.contents k = some v → LastStored history k v ∧ ∃ e ∈ history, Creates e k

theorem Explained.mono {history : List (Op × Reply)} {c c' : Cache} {e : Op × Reply}
    (h : Explained history c)
    (hsub : ∀ k v, c'.contents k = some v → c.contents k = some v ∧
      (∀ u, ¬ Stores e k u) ∧ ¬ Deletes e k) :
    Explained (history ++ [e]) c' := by
  intro k v hv
  obtain ⟨hc, hs, hd⟩ := hsub k v hv
  obtain ⟨hlast, creator, hmem, hcr⟩ := h k v hc
  exact ⟨hlast.snoc hs hd, creator, List.mem_append_left _ hmem, hcr⟩

theorem Explained.step {history : List (Op × Reply)} {c c' : Cache} {op : Op} {r : Reply}
    (h : Explained history c) (hs : c.step op = some (c', r)) :
    Explained (history ++ [(op, r)]) c' := by
  rcases Cache.step_cases hs with ⟨extra, change, kept, hr, rfl, hk, rfl⟩ |
    ⟨k, v, rfl, rfl, hc, rfl⟩ | ⟨rfl, _, hr, _⟩
  · -- a write: its own key is explained by this call, the others as before
    intro key value hv
    by_cases he : key = op.key
    · subst he
      have hval : value = op.value := by
        have := c.rewritten_contents_self op.key op.value change kept
        exact Option.some.inj (hv.symm.trans this)
      subst hval
      rcases Cache.request_cases hr with ⟨_, ⟨_, hop | hop, _⟩ | ⟨old, hold, _, ⟨hop, _⟩ | ⟨hop, _⟩⟩⟩
      · exact LastStored.of_put history hop
      · exact ⟨⟨history, _, [], rfl, Or.inr (Or.inl (by rw [← hop])), by simp⟩,
          (op, .status true), by simp, op.value, Or.inr (by rw [← hop])⟩
      · exact LastStored.of_put history hop
      · obtain ⟨_, creator, hmem, hcr⟩ := h _ _ hold
        exact ⟨⟨history, _, [], rfl, Or.inr (Or.inr (by rw [← hop])), by simp⟩,
          creator, List.mem_append_left _ hmem, hcr⟩
    · have hc := Cache.rewritten_contents_of_ne (shed_isPrefix hk) he hv
      obtain ⟨hlast, creator, hmem, hcr⟩ := h key value hc
      refine ⟨hlast.snoc (fun u hst => he hst.key_eq.symm) fun hd => ?_, creator,
        List.mem_append_left _ hmem, hcr⟩
      rw [(Prod.mk.inj hd).1] at hr
      simp [Cache.request] at hr
  · refine h.mono fun key value hv => ?_
    rw [Cache.contents_touched hc] at hv
    exact ⟨hv, quiet_call (by simp) key⟩
  · exact h.mono fun key value hv => ⟨hv, quiet_call hr key⟩

theorem Store.Reach.explained {m : Int32} (hm : 0 ≤ m) {history : List (Op × Reply)} {s : Store}
    (reach : Store.Reach m history s) : Explained history s.cache := by
  induction reach with
  | start => intro k v hv; simp [Store.fresh, Store.cache, Cache.contents] at hv
  | next reach hs ih => exact ih.step ((Store.Reach.valid hm reach).cache_step hs)

/-- A value that the next `Get` returns is the one most recently stored under its key
and not deleted since, and a key that no `Put` or `PutIfAbsent` stored is not found. -/
def Store.ReadsLastStored (history : List (Op × Reply)) (s : Store) : Prop :=
  (∀ k v t, s.step (.get k) = some (t, .value (some v)) → LastStored history k v) ∧
    ∀ k, (∀ e ∈ history, ¬ Creates e k) → s.step (.get k) = some (s, .value none)

theorem Store.Reach.readsLastStored {m : Int32} (hm : 0 ≤ m) {history : List (Op × Reply)}
    {s : Store} (reach : Store.Reach m history s) : s.ReadsLastStored history := by
  have hvalid := Store.Reach.valid hm reach
  have hexp := Store.Reach.explained hm reach
  constructor
  · intro k v t hs
    have hc : s.cache.contents k = some v := by
      rcases Cache.step_cases (hvalid.cache_step hs) with ⟨_, _, _, hr, _⟩ |
        ⟨k', v', hop, hr, hc, _⟩ | ⟨_, _, _, hr⟩
      · simp [Cache.request] at hr
      · cases hop
        cases hr
        exact hc
      · exact absurd rfl (hr v)
    exact (hexp k v hc).1
  · intro k hk
    rcases hvalid.linked.present_cases k with ⟨hm', _⟩ | ⟨n, _, _, _, hc⟩
    · simp [Store.step, Store.get, hm']
    · obtain ⟨_, e, he, hcr⟩ := hexp k n.value hc
      exact absurd hcr (hk e he)

/-- Calls none of which takes the front or the back of an empty list can be run, and
`Get` returns the values last stored in every state on the way, whatever is evicted,
if and only if no `Delete` hits. -/
theorem get_returns_last_stored {m : Int32} (hm : 0 ≤ m) {calls : List Op}
    (hempty : NoneTakesEmpty m calls) :
    ((PartialRun.run Store.step (Store.fresh m) calls).isSome ∧
        ∀ history s, Store.Reach m history s → history.map Prod.fst <+: calls →
          s.ReadsLastStored history) ↔ DeletesMiss m calls := by
  rw [run_isSome_iff_deletesMiss, and_iff_right hempty]
  exact and_iff_left fun _ _ reach _ => Store.Reach.readsLastStored hm reach

/-- The `Delete` finds its key and has no result. -/
theorem delete_hit_unreadable :
    let calls : List Op := [.put (text "aaaaaaaaaaaaaaaaaaaa") (text "1"),
      .put (text "bbbbbbbbbbbbbbbbbbbb") (text "2"), .delete (text "aaaaaaaaaaaaaaaaaaaa"),
      .get (text "bbbbbbbbbbbbbbbbbbbb")]
    NoneTakesEmpty 1000 calls ∧
      (PartialRun.run Store.step (Store.fresh 1000) (calls.take 2)).isSome ∧
      PartialRun.run Store.step (Store.fresh 1000) (calls.take 3) = none ∧
      ¬ ((PartialRun.run Store.step (Store.fresh 1000) calls).isSome ∧
        ∀ history s, Store.Reach 1000 history s → history.map Prod.fst <+: calls →
          s.ReadsLastStored history) := by
  intro calls
  have hdelete : (PartialRun.run Store.step (Store.fresh 1000) (calls.take 3)).isNone := by decide
  have hget : (PartialRun.run Store.step (Store.fresh 1000) calls).isSome = false := by decide
  refine ⟨noneTakesEmpty_of_each (by decide) (by decide), by decide,
    Option.isNone_iff_eq_none.mp hdelete, ?_⟩
  rintro ⟨hsome, _⟩
  cases hget.symm.trans hsome

theorem get_returns_last_stored_overwrite :
    let calls : List Op := [.put (text "b") (text "123"), .put (text "a") (text "12"),
      .put (text "c") (text "123"), .put (text "a") (text "34"), .delete (text "d")]
    NoneTakesEmpty 9 calls ∧ DeletesMiss 9 calls ∧
      ∃ history s t, Store.Reach 9 history s ∧ history.map Prod.fst = calls ∧
        s.step (.get (text "a")) = some (t, .value (some (text "34"))) ∧
        LastStored history (text "a") (text "34") := by
  intro calls
  have hempty : NoneTakesEmpty 9 calls := noneTakesEmpty_of_each (by decide) (by decide)
  have hmiss : DeletesMiss 9 calls := PartialRun.holds_of_each (by decide)
  have hrun : (PartialRun.run Store.step (Store.fresh 9) calls).isSome := by decide
  have hget : ((PartialRun.run Store.step (Store.fresh 9) calls).bind fun r =>
      (r.1.step (.get (text "a"))).map Prod.snd) = some (.value (some (text "34"))) := by decide
  obtain ⟨⟨s, history⟩, hrun⟩ := Option.isSome_iff_exists.mp hrun
  rw [hrun, Option.bind_some] at hget
  obtain ⟨⟨t, r⟩, hs, hr⟩ := Option.map_eq_some_iff.mp hget
  cases hr
  have reach : Store.Reach 9 history s := PartialRun.run_reach hrun
  have hcalls := PartialRun.run_calls hrun
  have hlaw := ((get_returns_last_stored (by decide) hempty).mpr hmiss).2 history s reach
    (by rw [hcalls])
  exact ⟨hempty, hmiss, history, s, t, reach, hcalls, hs, hlaw.1 _ _ _ hs⟩

end Afina
