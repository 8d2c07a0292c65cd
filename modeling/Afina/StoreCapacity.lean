import Afina.StoreAccounting
import Afina.StoreRoom

namespace Afina

open TailShed KeyedList

def Store.WithinLimit (s : Store) : Prop := (s.bytesHeld : Int) ≤ s.maxSize.toInt

instance (s : Store) : Decidable s.WithinLimit :=
  inferInstanceAs (Decidable ((s.bytesHeld : Int) ≤ s.maxSize.toInt))

/-- How far the bytes that would be held without eviction are over the limit. -/
def Cache.overrun (c : Cache) (op : Op) : Int :=
  c.rest op.key + entrySize (op.key, op.value) - c.limit.toInt

/-- No tail of the other entries has so many bytes that the counter is satisfied
without it, and fewer than the overrun. -/
def Cache.NoShortTail (c : Cache) (op : Op) : Prop :=
  ∀ plan ∈ c.request op, ∀ tail ∈ (others op.key c.entries).tails,
    c.excess plan.1 ≤ weight entrySize tail → c.overrun op ≤ weight entrySize tail

instance (c : Cache) (op : Op) : Decidable (c.NoShortTail op) :=
  show Decidable (∀ plan ∈ c.request op, ∀ tail ∈ (others op.key c.entries).tails,
    c.excess plan.1 ≤ weight entrySize tail → c.overrun op ≤ weight entrySize tail) from
    Option.decidableForallMem _

theorem Cache.Sound.total_settle_le {c : Cache} (h : c.Sound) (op : Op) :
    (c.settle op).1.total ≤ c.total := by
  cases op with
  | put k v => exact Nat.le_refl _
  | putIfAbsent k v => exact Nat.le_refl _
  | set k v => exact Nat.le_refl _
  | delete k => exact Nat.le_refl _
  | get k =>
    cases ho : c.contents k with
    | none => simp [Cache.settle, ho]
    | some old =>
      have htotal := h.total_eq k
      rw [Cache.own_of_some ho] at htotal
      simp only [Cache.settle, ho]
      simp only [Cache.rest] at htotal
      simp only [Cache.total, weight_cons] at htotal ⊢
      omega

theorem Cache.settle_limit (c : Cache) (op : Op) : (c.settle op).1.limit = c.limit := by
  cases op with
  | get k => cases ho : c.contents k <;> simp [Cache.settle, ho]
  | _ => rfl

/-- What is shed is the shortest of the tails that satisfy the counter, so it is
enough for the limit exactly when none of them is too short. -/
theorem Cache.Sound.within_iff {c : Cache} (h : c.Sound) (hc : (c.total : Int) ≤ c.limit.toInt)
    (op : Op) :
    (∃ c' r, c.step op = some (c', r) ∧ (c'.total : Int) ≤ c'.limit.toInt) ↔
      c.MakesRoom op ∧ c.NoShortTail op ∧ c.DeleteMisses op := by
  cases hr : c.request op with
  | none =>
    have hroom : c.MakesRoom op := by simp [Cache.MakesRoom, hr]
    have htails : c.NoShortTail op := by simp [Cache.NoShortTail, hr]
    by_cases hmiss : c.DeleteMisses op
    · have hle := h.total_settle_le op
      rw [Cache.step_exists_of_settle hr hmiss fun c' => (c'.total : Int) ≤ c'.limit.toInt,
        c.settle_limit op]
      exact iff_of_true (by omega) ⟨hroom, htails, hmiss⟩
    · exact iff_of_false (by simp [Cache.step_delete_hit hmiss]) fun hall => hmiss hall.2.2
  | some plan =>
    obtain ⟨extra, change⟩ := plan
    have hroom : c.MakesRoom op ↔ c.excess extra ≤ c.rest op.key := by simp [Cache.MakesRoom, hr]
    have htails : c.NoShortTail op ↔ ∀ tail, tail <:+ others op.key c.entries →
        c.excess extra ≤ weight entrySize tail → c.overrun op ≤ weight entrySize tail := by
      simp [Cache.NoShortTail, hr, List.mem_tails]
    rw [and_iff_left (Cache.deleteMisses_of_request hr), hroom, htails]
    cases hk : shed entrySize (c.excess extra) (others op.key c.entries) with
    | none =>
      have hnone : c.step op = none := by rw [Cache.step_of_request hr, hk]; rfl
      have hover : ¬ c.excess extra ≤ c.rest op.key := Int.not_le.mpr (shed_none_iff.mp hk)
      exact iff_of_false (by simp [hnone]) fun hall => hover hall.1
    | some kept =>
      have hfits : c.excess extra ≤ c.rest op.key := shed_isSome_iff.mp (by rw [hk]; rfl)
      rw [Cache.step_exists_of_shed hr hk fun c' => (c'.total : Int) ≤ c'.limit.toInt,
        Cache.total_rewritten, and_iff_right hfits]
      change ((_ + weight entrySize kept : Nat) : Int) ≤ c.limit.toInt ↔ _
      obtain ⟨dropped, hsplit, hover, _⟩ := shed_spec hk
      have hweight : c.rest op.key = weight entrySize kept + weight entrySize dropped := by
        rw [Cache.rest, hsplit, weight_append]
      unfold Cache.overrun
      constructor
      · rintro hwithin tail ⟨part, hpart⟩ htail
        have hparts : c.rest op.key = weight entrySize part + weight entrySize tail := by
          rw [Cache.rest, ← hpart, weight_append]
        obtain ⟨more, hmore⟩ := shed_maximal hk ⟨tail, hpart⟩
          (show c.excess extra ≤ c.rest op.key - weight entrySize part by omega)
        have : weight entrySize kept = weight entrySize part + weight entrySize more := by
          rw [← hmore, weight_append]
        omega
      · intro hall
        have := hall dropped ⟨kept, hsplit.symm⟩ (by omega)
        omega

/-- A list of calls on the empty store can be run, and the bytes held are within the
limit in every state reached, if and only if in the state each call is made in some
tail of the other entries satisfies the counter, none that does falls short of the
overrun, and no `Delete` hits. -/
theorem within_limit_along_iff {m : Int32} (hm : 0 ≤ m) (calls : List Op) :
    ((PartialRun.run Store.step (Store.fresh m) calls).isSome ∧
        ∀ history s, Store.Reach m history s → history.map Prod.fst <+: calls → s.WithinLimit) ↔
      ∀ history s op, Store.Reach m history s → history.map Prod.fst ++ [op] <+: calls →
        s.cache.MakesRoom op ∧ s.cache.NoShortTail op ∧ s.DeleteMisses op := by
  refine PartialRun.completes_along_iff (I := Store.Valid) (Store.fresh_valid hm)
    (fun _ _ _ _ h hs => h.step hs) (Store.fresh_valid hm).limit_nonneg ?_ calls
  intro s op hvalid hwithin
  rw [← hvalid.linked.deleteMisses_iff op,
    ← hvalid.sound.within_iff (by rw [Store.total_cache]; exact hwithin) op,
    ← hvalid.step_exists_iff op fun c => (c.total : Int) ≤ c.limit.toInt]
  simp only [Store.total_cache]
  rfl

/-- The growth of an overwritten value is never counted, so the next insertion
evicts nothing. -/
theorem put_overwrite_exceeds_limit :
    ∃ history s, Store.Reach 10 history s ∧
      history.map Prod.fst = [.put (text "a") (text ""), .put (text "a") (text "123456789"),
        .put (text "b") (text "12345678")] ∧ ¬ s.WithinLimit :=
  PartialRun.reach_of_check _ _ _ _ (by decide)

theorem within_limit_along_iff_shrink :
    (0 : Int32) ≤ 10 ∧
      ∀ history s, Store.Reach 10 history s → history.map Prod.fst <+:
        [.put (text "a") (text "12345"), .put (text "a") (text "1"), .put (text "b") (text "123"),
          .delete (text "d"), .put (text "c") (text "1234")] → s.WithinLimit :=
  ⟨by decide, ((within_limit_along_iff (by decide) _).mpr
    (PartialRun.holds_of_each (by decide))).2⟩

end Afina
