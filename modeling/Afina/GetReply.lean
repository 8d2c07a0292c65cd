import Afina.Lib.Framing
import Afina.ParserCore
import Afina.StoreOutcome

namespace Afina

open Framing Decimal KeyedList

theorem Store.Linked.get_spec {s : Store} (h : s.Linked) (k : Bytes) :
    ∃ t, s.get k = some (t, s.cache.contents k) ∧ t.Linked ∧
      t.cache.contents = s.cache.contents ∧ t.currentSize = s.currentSize := by
  rcases h.present_cases k with ⟨hm, hc⟩ | ⟨n, hn, rfl, hm, hc⟩
  · exact ⟨s, by simp [Store.get, hm, hc], h, rfl, rfl⟩
  · obtain ⟨_, _, hsplice⟩ := h.located hn
    have hcache : (s.touched n).cache =
        { s.cache with entries := (n.key, n.value) :: others n.key s.cache.entries } := by
      rw [others_cache]
      rfl
    refine ⟨s.touched n, ?_, h.touched hn, ?_, rfl⟩
    · simp [Store.get, hm, hsplice, hc, Store.touched]
    · rw [hcache, Cache.contents_touched hc]

/-- The requested keys that are present, as they are requested, with their
values. -/
def hits (s : Store) (keys : List Bytes) : List (Bytes × Bytes) :=
  keys.filterMap fun k => (s.cache.contents k).map (k, ·)

def getReply (entries : List (Bytes × Bytes)) : Bytes :=
  entries.flatMap (fun e => getItem e.1 e.2) ++ text "END"

theorem Store.Linked.getItems_spec {s : Store} (h : s.Linked) (keys : List Bytes) :
    ∃ t, getItems keys s = some (t, (hits s keys).flatMap fun e => getItem e.1 e.2) ∧ t.Linked ∧
      t.cache.contents = s.cache.contents ∧ t.currentSize = s.currentSize := by
  induction keys generalizing s with
  | nil => exact ⟨s, rfl, h, rfl, rfl⟩
  | cons k keys ih =>
    obtain ⟨t, hget, ht, hcontents, hsize⟩ := h.get_spec k
    obtain ⟨u, hitems, hu, hcontents', hsize'⟩ := ih ht
    have hhits : hits t keys = hits s keys := by simp only [hits, hcontents]
    rw [hhits] at hitems
    refine ⟨u, ?_, hu, hcontents'.trans hcontents, hsize'.trans hsize⟩
    cases hc : s.cache.contents k with
    | none => simp [getItems, hget, hitems, hits, hc]
    | some v => simp [getItems, hget, hitems, hits, hc]

theorem Store.Linked.getExecute_spec {s : Store} (h : s.Linked) (keys : List Bytes) :
    ∃ t, getExecute keys s = some (t, getReply (hits s keys)) ∧
      t.cache.contents = s.cache.contents ∧ t.currentSize = s.currentSize := by
  obtain ⟨t, hitems, _, hcontents, hsize⟩ := h.getItems_spec keys
  exact ⟨t, by simp [getExecute, hitems, getReply], hcontents, hsize⟩

theorem render_injective {m n : Nat} (h : render m = render n) : m = n := by
  rw [← value_render m, h, value_render]

theorem cr_notMem_render (n : Nat) : cr ∉ render n := fun h =>
  absurd (isDigit_of_mem_render h) (by decide)

theorem getItem_append (key value rest : Bytes) :
    getItem key value ++ rest = text "VALUE " ++ (key ++ space :: (text "0 " ++
      (render value.length ++ cr :: ([lf] ++ (value ++ (text "\r\n" ++ rest)))))) := by
  have hspace : text " 0 " = space :: text "0 " := by decide
  have hline : text "\r\n" = cr :: [lf] := by decide
  simp only [getItem, hspace, hline, List.append_assoc, List.cons_append, List.nil_append]

/-- The key ends at the first space, the length at the first CR, and the value
where its length says. -/
theorem getItem_prefixUnique :
    PrefixUnique (fun e : Bytes × Bytes => space ∉ e.1) (fun e => getItem e.1 e.2) := by
  rintro ⟨k, v⟩ ⟨k', v'⟩ rest rest' hk hk' heq
  rw [getItem_append, getItem_append, List.append_cancel_left_eq] at heq
  obtain ⟨hkey, hlength⟩ := field_unique hk hk' heq
  rw [List.append_cancel_left_eq] at hlength
  obtain ⟨hrender, hvalue⟩ := field_unique (cr_notMem_render _) (cr_notMem_render _) hlength
  rw [List.append_cancel_left_eq] at hvalue
  obtain ⟨hsame, hrest⟩ := List.append_inj hvalue (render_injective hrender)
  exact ⟨Prod.ext hkey hsame, List.append_cancel_left hrest⟩

theorem getItem_ne_end (key value rest : Bytes) : getItem key value ++ rest ≠ text "END" := by
  have hverb : text "VALUE " = 86 :: text "ALUE " := by decide
  have hend : text "END" = 69 :: text "ND" := by decide
  rw [getItem_append, hverb, hend, List.cons_append]
  simp

theorem getReply_injective {xs ys : List (Bytes × Bytes)} (hx : ∀ e ∈ xs, space ∉ e.1)
    (hy : ∀ e ∈ ys, space ∉ e.1) (h : getReply xs = getReply ys) : xs = ys :=
  getItem_prefixUnique.sequence (fun e rest _ => getItem_ne_end e.1 e.2 rest) hx hy h

theorem space_notMem_hits {s : Store} {keys : List Bytes}
    (h : ∀ k ∈ keys, space ∉ k ∧ cr ∉ k) : ∀ e ∈ hits s keys, space ∉ e.1 := by
  intro e he
  obtain ⟨k, hk, hmap⟩ := List.mem_filterMap.mp he
  obtain ⟨v, _, rfl⟩ := Option.map_eq_some_iff.mp hmap
  exact (h k hk).1

/-- Calls lead to a store on which `get` changes no association and no size and replies
with the hits in the order of the request, and on which its reply, compared with any
other, determines them, if and only if they all have a result and no `Delete` among
them hits. -/
theorem get_reply_exact {m : Int32} (calls : List Op) {keys : List Bytes}
    (hkeys : ∀ k ∈ keys, space ∉ k ∧ cr ∉ k) :
    (∃ history s, PartialRun.run Store.step (Store.fresh m) calls = some (s, history) ∧
        (∃ t, getExecute keys s = some (t, getReply (hits s keys)) ∧
          t.cache.contents = s.cache.contents ∧ t.currentSize = s.currentSize) ∧
        ∀ m' history' s', Store.Reach m' history' s' → ∀ keys' : List Bytes,
          (∀ k ∈ keys', space ∉ k ∧ cr ∉ k) → ∀ t t' out,
          getExecute keys s = some (t, out) → getExecute keys' s' = some (t', out) →
          hits s keys = hits s' keys') ↔
      NoneTakesEmpty m calls ∧ DeletesMiss m calls := by
  rw [← run_isSome_iff_deletesMiss]
  constructor
  · rintro ⟨history, s, hrun, _⟩
    rw [hrun]
    rfl
  · intro hsome
    obtain ⟨⟨s, history⟩, hrun⟩ := Option.isSome_iff_exists.mp hsome
    have reach : Store.Reach m history s := PartialRun.run_reach hrun
    have hspec := reach.linked.getExecute_spec keys
    refine ⟨history, s, hrun, hspec, ?_⟩
    intro m' history' s' reach' keys' hkeys' t t' out hout hout'
    obtain ⟨u, hu, _⟩ := hspec
    obtain ⟨u', hu', _⟩ := reach'.linked.getExecute_spec keys'
    have hsame : getReply (hits s keys) = getReply (hits s' keys') := by
      have hleft := congrArg Prod.snd (Option.some.inj (hu.symm.trans hout))
      have hright := congrArg Prod.snd (Option.some.inj (hu'.symm.trans hout'))
      exact hleft.trans hright.symm
    exact getReply_injective (space_notMem_hits hkeys) (space_notMem_hits hkeys') hsame

/-- The `Delete` finds its key and has no result: there is no store to reply from. -/
theorem delete_hit_no_reply :
    let calls : List Op := [.put (text "aaaaaaaaaaaaaaaaaaaa") (text "1"),
      .put (text "bbbbbbbbbbbbbbbbbbbb") (text "2"), .delete (text "aaaaaaaaaaaaaaaaaaaa")]
    let keys : List Bytes := [text "bbbbbbbbbbbbbbbbbbbb"]
    (∀ k ∈ keys, space ∉ k ∧ cr ∉ k) ∧ NoneTakesEmpty 1000 calls ∧
      ¬ ∃ history s, PartialRun.run Store.step (Store.fresh 1000) calls = some (s, history) ∧
        (∃ t, getExecute keys s = some (t, getReply (hits s keys)) ∧
          t.cache.contents = s.cache.contents ∧ t.currentSize = s.currentSize) ∧
        ∀ m' history' s', Store.Reach m' history' s' → ∀ keys' : List Bytes,
          (∀ k ∈ keys', space ∉ k ∧ cr ∉ k) → ∀ t t' out,
          getExecute keys s = some (t, out) → getExecute keys' s' = some (t', out) →
          hits s keys = hits s' keys' := by
  intro calls keys
  have hdelete : (PartialRun.run Store.step (Store.fresh 1000) calls).isSome = false := by decide
  refine ⟨by decide, noneTakesEmpty_of_each (by decide) (by decide), ?_⟩
  rintro ⟨history, s, hrun, _⟩
  rw [hrun] at hdelete
  cases hdelete

theorem get_reply_exact_framing :
    ∃ history s, Store.Reach 64 history s ∧
      history.map Prod.fst = [.put (text "a") (text "\r\nEND"), .put (text "c") (text "1"),
        .delete (text "d")] ∧
      hits s [text "a", text "b", text "a"] =
        [(text "a", text "\r\nEND"), (text "a", text "\r\nEND")] ∧
      (∃ t, getExecute [text "a", text "b", text "a"] s = some (t, getReply
          [(text "a", text "\r\nEND"), (text "a", text "\r\nEND")]) ∧
        t.cache.contents = s.cache.contents ∧ t.currentSize = s.currentSize) ∧
      ∀ t t' out, getExecute [text "a", text "b", text "a"] s = some (t, out) →
        getExecute [text "a"] s = some (t', out) → False := by
  let calls : List Op := [.put (text "a") (text "\r\nEND"), .put (text "c") (text "1"),
    .delete (text "d")]
  have hempty : NoneTakesEmpty 64 calls := noneTakesEmpty_of_each (by decide) (by decide)
  have hmiss : DeletesMiss 64 calls := PartialRun.holds_of_each (by decide)
  have hhits : ((PartialRun.run Store.step (Store.fresh 64) calls).map fun r =>
      (hits r.1 [text "a", text "b", text "a"], hits r.1 [text "a"])) =
      some ([(text "a", text "\r\nEND"), (text "a", text "\r\nEND")],
        [(text "a", text "\r\nEND")]) := by decide
  obtain ⟨history, s, hrun, hreply, hunique⟩ :=
    (@get_reply_exact 64 calls [text "a", text "b", text "a"] (by decide)).mpr ⟨hempty, hmiss⟩
  rw [hrun, Option.map_some] at hhits
  obtain ⟨htwo, hone⟩ := Prod.mk.inj (Option.some.inj hhits)
  have reach : Store.Reach 64 history s := PartialRun.run_reach hrun
  refine ⟨history, s, reach, PartialRun.run_calls hrun, htwo, htwo ▸ hreply,
    fun t t' out hout hout' => ?_⟩
  have hsame := hunique _ _ _ reach [text "a"] (by decide) t t' out hout hout'
  rw [htwo, hone] at hsame
  exact absurd hsame (by decide)

end Afina
