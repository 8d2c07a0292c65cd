import Afina.StoreOutcome

namespace Afina

open TailShed KeyedList

/-- A call that succeeded in storing or in finding the key. -/
def Touches (e : Op × Reply) (k : Bytes) : Prop :=
  (∃ v, Stores e k v) ∨ ∃ v, e = (.get k, .value (some v))

theorem Touches.key_eq {op : Op} {r : Reply} {k : Bytes} (h : Touches (op, r) k) : op.key = k := by
  rcases h with ⟨v, hst⟩ | ⟨v, he⟩
  · exact hst.key_eq
  · cases he
    rfl

/-- The call with this index was the last to touch the key. -/
def LastTouched (history : List (Op × Reply)) (k : Bytes) (i : Nat) : Prop :=
  (∃ e, history[i]? = some e ∧ Touches e k) ∧
    ∀ j e, i < j → history[j]? = some e → ¬ Touches e k

theorem LastTouched.lt {history : List (Op × Reply)} {k : Bytes} {i : Nat}
    (h : LastTouched history k i) : i < history.length := by
  obtain ⟨⟨e, he, _⟩, _⟩ := h
  exact (List.getElem?_eq_some_iff.mp he).1

theorem LastTouched.snoc {history : List (Op × Reply)} {k : Bytes} {i : Nat} {e : Op × Reply}
    (h : LastTouched history k i) (he : ¬ Touches e k) : LastTouched (history ++ [e]) k i := by
  have hlt := h.lt
  obtain ⟨⟨e', hi, ht⟩, hlater⟩ := h
  refine ⟨⟨e', by rw [List.getElem?_append_left hlt, hi], ht⟩, fun j e'' hj hg => ?_⟩
  by_cases hjl : j < history.length
  · rw [List.getElem?_append_left hjl] at hg
    exact hlater j e'' hj hg
  · rw [List.getElem?_append_right (by omega), List.getElem?_singleton] at hg
    split at hg
    next =>
      cases hg
      exact he
    next => cases hg

theorem lastTouched_now {history : List (Op × Reply)} {k : Bytes} {e : Op × Reply}
    (h : Touches e k) : LastTouched (history ++ [e]) k history.length := by
  refine ⟨⟨e, by simp, h⟩, fun j e' hj hg => ?_⟩
  have := (List.getElem?_eq_some_iff.mp hg).1
  rw [List.length_append, List.length_singleton] at this
  omega

/-- The keys are in the order of their last touches, the latest first. -/
structure Recent (history : List (Op × Reply)) (keys : List Bytes) : Prop where
  times : ∀ k ∈ keys, ∃ i, LastTouched history k i
  order : keys.Pairwise fun a b =>
    ∃ i j, LastTouched history a i ∧ LastTouched history b j ∧ j < i

theorem Recent.sublist {history : List (Op × Reply)} {keys fewer : List Bytes} {e : Op × Reply}
    (h : Recent history keys) (hsub : fewer.Sublist keys) (he : ∀ k ∈ fewer, ¬ Touches e k) :
    Recent (history ++ [e]) fewer := by
  constructor
  · intro k hk
    obtain ⟨i, hi⟩ := h.times k (hsub.subset hk)
    exact ⟨i, hi.snoc (he k hk)⟩
  · refine (h.order.sublist hsub).imp_of_mem ?_
    rintro a b ha hb ⟨i, j, hi, hj, hlt⟩
    exact ⟨i, j, hi.snoc (he a ha), hj.snoc (he b hb), hlt⟩

theorem Recent.touch {history : List (Op × Reply)} {keys fewer : List Bytes} {op : Op} {r : Reply}
    (h : Recent history keys) (hsub : fewer.Sublist keys) (hnot : op.key ∉ fewer)
    (ht : Touches (op, r) op.key) : Recent (history ++ [(op, r)]) (op.key :: fewer) := by
  have hothers : ∀ k ∈ fewer, ¬ Touches (op, r) k := fun k hk hk' => hnot (hk'.key_eq ▸ hk)
  have hrest := h.sublist hsub hothers
  constructor
  · intro k hk
    rcases List.mem_cons.mp hk with rfl | hk
    · exact ⟨_, lastTouched_now ht⟩
    · exact hrest.times k hk
  · refine List.pairwise_cons.mpr ⟨fun b hb => ?_, hrest.order⟩
    obtain ⟨j, hj⟩ := h.times b (hsub.subset hb)
    exact ⟨_, j, lastTouched_now ht, hj.snoc (hothers b hb), hj.lt⟩

/-- The keys of the nodes that the `FreeSpace` of a call takes off the list. -/
def Store.evictedKeys (s : Store) (op : Op) : List Bytes :=
  match s.freeSpaceCall op with
  | none => []
  | some (t, x) =>
    match t.freeSpace x with
    | none => []
    | some u => (t.lru.drop u.lru.length).map Node.key

/-- A call, watched for what it evicts. -/
def Store.watched (s : Store) (op : Op) : Option (Store × (Reply × List Bytes)) :=
  (s.step op).map fun r => (r.1, r.2, s.evictedKeys op)

/-- The runs of a store, with the keys that every call evicted. -/
abbrev Store.Trail (maxSize : Int32) : List (Op × (Reply × List Bytes)) → Store → Prop :=
  PartialRun.Reach Store.watched (Store.fresh maxSize)

/-- A call of a trail without what it evicted. -/
def plain (e : Op × (Reply × List Bytes)) : Op × Reply := (e.1, e.2.1)

theorem Store.Reach.trail {m : Int32} {history : List (Op × Reply)} {s : Store}
    (reach : Store.Reach m history s) :
    ∃ trail, Store.Trail m trail s ∧ trail.map plain = history := by
  induction reach with
  | start => exact ⟨[], .start, rfl⟩
  | @next history s op r t _ hs ih =>
    obtain ⟨trail, htrail, rfl⟩ := ih
    have hw : s.watched op = some (t, r, s.evictedKeys op) := by rw [Store.watched, hs]; rfl
    exact ⟨trail ++ [(op, r, s.evictedKeys op)], .next htrail hw, by simp [plain]⟩

/-- Some call stored under the key, and the key was not deleted or evicted since. -/
def Held (trail : List (Op × (Reply × List Bytes))) (k : Bytes) : Prop :=
  ∃ before e after, trail = before ++ e :: after ∧ (∃ v, Stores (plain e) k v) ∧
    ∀ later ∈ after, ¬ Deletes (plain later) k ∧ k ∉ later.2.2

theorem held_snoc_iff {trail : List (Op × (Reply × List Bytes))} {e : Op × (Reply × List Bytes)}
    {k : Bytes} : Held (trail ++ [e]) k ↔
      (∃ v, Stores (plain e) k v) ∨ (Held trail k ∧ ¬ Deletes (plain e) k ∧ k ∉ e.2.2) := by
  constructor
  · rintro ⟨before, stored, after, hsplit, hstores, hafter⟩
    rcases List.eq_nil_or_concat' after with rfl | ⟨after, last, rfl⟩
    · obtain ⟨_, he⟩ := List.append_inj' (hsplit : trail ++ [e] = before ++ [stored]) rfl
      cases he
      exact Or.inl hstores
    · rw [← List.cons_append, ← List.append_assoc] at hsplit
      obtain ⟨rfl, he⟩ := List.append_inj' hsplit rfl
      cases he
      exact Or.inr ⟨⟨before, stored, after, rfl, hstores, fun later hl =>
        hafter later (List.mem_append_left _ hl)⟩, hafter e (by simp)⟩
  · rintro (hstores | ⟨⟨before, stored, after, rfl, hstores, hafter⟩, hkept⟩)
    · exact ⟨trail, e, [], rfl, hstores, by simp⟩
    · refine ⟨before, stored, after ++ [e], by simp, hstores, fun later hl => ?_⟩
      rcases List.mem_append.mp hl with hl | hl
      · exact hafter later hl
      · rw [List.mem_singleton.mp hl]
        exact hkept

/-- A call that stores nothing and evicts nothing keeps what is held. -/
theorem held_snoc_quiet {trail : List (Op × (Reply × List Bytes))} {op : Op} {r : Reply}
    (h : r ≠ .status true) (k : Bytes) : Held (trail ++ [(op, r, [])]) k ↔ Held trail k := by
  have hquiet : (∀ u, ¬ Stores (op, r) k u) ∧ ¬ Deletes (op, r) k := quiet_call h k
  rw [held_snoc_iff, or_iff_right fun hs => hs.elim hquiet.1,
    and_iff_left ⟨hquiet.2, List.not_mem_nil⟩]

theorem Store.evictedKeys_of_none {s : Store} {op : Op} (h : s.freeSpaceCall op = none) :
    s.evictedKeys op = [] := by
  rw [Store.evictedKeys, h]

theorem Store.Cut.evictedKeys {s u : Store} {op : Op} {x : Int32} {kept dropped : List Node}
    (cut : u.Cut x kept dropped) (call : s.freeSpaceCall op = some (u, x))
    (freed : u.freeSpace x = some (u.keep kept)) : s.evictedKeys op = dropped.map Node.key := by
  simp only [Store.evictedKeys, call, freed, Store.keep]
  rw [cut.split, List.drop_left]

theorem keys_filter_ne (l : List Node) (k : Bytes) :
    (l.filter (fun m => m.key != k)).map Node.key = (l.map Node.key).filter (· != k) := by
  rw [List.filter_map]
  rfl

/-- The keys, with that of the call in front, after a call that succeeded, and
behind them the keys that it evicted. -/
theorem Store.Shape.keys {s t : Store} {op : Op} {r : Reply} (h : s.Shape op r t)
    (hr : r ≠ .status false) (hr' : r ≠ .value none) :
    t.lru.map Node.key ++ s.evictedKeys op =
      op.key :: (s.lru.map Node.key).filter (· != op.key) := by
  cases h with
  | @written _ u _ x kept dropped n call cut freed spared same stores key lru linked =>
    have hdropped : dropped.filter (fun m => m.key != op.key) = dropped :=
      List.filter_eq_self.mpr fun m hm => by simpa using spared m hm
    have hothers : s.lru.filter (fun m => m.key != op.key) =
        kept.filter (fun m => m.key != op.key) ++ dropped := by
      rw [← same, cut.split, List.filter_append, hdropped]
    rw [cut.evictedKeys call freed, lru, List.map_cons, key, ← keys_filter_ne, hothers,
      List.map_append, List.cons_append]
  | @found n mem =>
    have hnone : s.evictedKeys (.get n.key) = [] := Store.evictedKeys_of_none rfl
    rw [hnone, List.append_nil]
    simp only [Store.touched, List.map_cons, keys_filter_ne, Op.key]
  | unchanged fails call => exact (fails.elim hr hr').elim

/-- What the list is like after a run: it holds the keys that are held, each under
its map entry, in the order of their last touches. -/
structure Store.InOrder (trail : List (Op × (Reply × List Bytes))) (s : Store) : Prop where
  present : ∀ k, k ∈ s.lru.map Node.key ↔ Held trail k
  mapped : ∀ k, (s.cacheMap k).isSome ↔ k ∈ s.lru.map Node.key
  recent : Recent (trail.map plain) (s.lru.map Node.key)

theorem Store.Shape.recent {s t : Store} {op : Op} {r : Reply} {history : List (Op × Reply)}
    (hs : s.Shape op r t) (h : Recent history (s.lru.map Node.key)) :
    Recent (history ++ [(op, r)]) (t.lru.map Node.key) := by
  cases hs with
  | @written _ u _ x kept dropped n call cut freed spared same stores key lru linked =>
    have hpre : kept <+: u.lru := ⟨dropped, cut.split.symm⟩
    have hsub : (kept.filter fun m => m.key != op.key).Sublist s.lru :=
      (hpre.sublist.filter _).trans (same.symm ▸ List.filter_sublist)
    rw [lru, List.map_cons, key]
    refine h.touch (hsub.map _) (fun hmem => ?_) (Or.inl ⟨_, stores⟩)
    obtain ⟨m, hm, hk⟩ := List.mem_map.mp hmem
    simp [hk] at hm
  | @found n mem =>
    refine h.touch (List.filter_sublist.map Node.key) (fun hmem => ?_) (Or.inr ⟨_, rfl⟩)
    obtain ⟨m, hm, hk⟩ := List.mem_map.mp hmem
    simp only [List.mem_filter, bne_iff_ne] at hm
    exact hm.2 hk
  | unchanged fails call =>
    refine h.sublist (List.Sublist.refl _) fun k' _ ht => ?_
    rcases ht with ⟨v, he | he | he⟩ | ⟨v, he⟩ <;> cases he <;> simp at fails

/-- Presence after a call: of its own key if it succeeded, of another if the key was
present and is not among those evicted. -/
theorem Store.Shape.present {s t : Store} {op : Op} {r : Reply}
    {trail : List (Op × (Reply × List Bytes))} (hs : s.Shape op r t) (hlinked : s.Linked)
    (h : ∀ k, k ∈ s.lru.map Node.key ↔ Held trail k) (k : Bytes) :
    k ∈ t.lru.map Node.key ↔ Held (trail ++ [(op, r, s.evictedKeys op)]) k := by
  cases hs with
  | @written _ u _ x kept dropped n call cut freed spared same stores key lru linked =>
    have hkeys := (Store.Shape.written call cut freed spared same stores key lru linked).keys
      (by simp) (by simp)
    have hapart : ∀ a ∈ t.lru.map Node.key, ∀ b ∈ s.evictedKeys op, a ≠ b := by
      have hnodup : (op.key :: (s.lru.map Node.key).filter (· != op.key)).Nodup :=
        List.nodup_cons.mpr ⟨by simp, hlinked.keys_nodup.filter _⟩
      rw [← hkeys, List.nodup_append] at hnodup
      exact hnodup.2.2
    have hmem : k ∈ t.lru.map Node.key ∨ k ∈ s.evictedKeys op ↔
        k = op.key ∨ (k ∈ s.lru.map Node.key ∧ k ≠ op.key) := by
      rw [← List.mem_append, hkeys, List.mem_cons, List.mem_filter, bne_iff_ne]
    have hfront : op.key ∈ t.lru.map Node.key := by rw [lru, List.map_cons, key]; simp
    rw [held_snoc_iff]
    by_cases hk : k = op.key
    · subst hk
      exact iff_of_true hfront (Or.inl ⟨_, stores⟩)
    · have hnot : ¬ ∃ v, Stores (plain (op, .status true, s.evictedKeys op)) k v :=
        fun ⟨v, hv⟩ => hk hv.key_eq.symm
      have hnotDeleted : ¬ Deletes (plain (op, .status true, s.evictedKeys op)) k := by
        intro he
        cases (Prod.mk.inj he).1
        exact hk rfl
      rw [or_iff_right hnot, ← h k]
      constructor
      · intro ht
        refine ⟨?_, hnotDeleted, fun he => hapart k ht k he rfl⟩
        exact ((hmem.mp (Or.inl ht)).resolve_left hk).1
      · rintro ⟨hold, _, hkept⟩
        exact (hmem.mpr (Or.inr ⟨hold, hk⟩)).resolve_right hkept
  | @found n mem =>
    have hnone : s.evictedKeys (.get n.key) = [] := Store.evictedKeys_of_none rfl
    rw [hnone, held_snoc_quiet (by simp) k, ← h k]
    exact ((hlinked.touched_perm mem).map Node.key).mem_iff.symm
  | unchanged fails call =>
    rw [Store.evictedKeys_of_none call, held_snoc_quiet (by rcases fails with rfl | rfl <;> simp) k]
    exact h k

theorem Store.Linked.mapped {s : Store} (h : s.Linked) (k : Bytes) :
    (s.cacheMap k).isSome ↔ k ∈ s.lru.map Node.key := by
  rw [Option.isSome_iff_exists, List.mem_map]
  constructor
  · rintro ⟨a, ha⟩
    obtain ⟨n, hn, hk, _⟩ := (h.map_iff k a).mp ha
    exact ⟨n, hn, hk⟩
  · rintro ⟨n, hn, hk⟩
    exact ⟨n.address, (h.map_iff k n.address).mpr ⟨n, hn, hk, rfl⟩⟩

theorem Store.Trail.inOrder {m : Int32} {trail : List (Op × (Reply × List Bytes))} {s : Store}
    (htrail : Store.Trail m trail s) : s.Linked ∧ s.InOrder trail := by
  induction htrail with
  | start =>
    refine ⟨Store.fresh_linked m, fun k => ?_, (Store.fresh_linked m).mapped, ?_⟩
    · simp [Store.fresh, Held]
    · exact ⟨fun k hk => by simp [Store.fresh] at hk, List.Pairwise.nil⟩
  | @next trail s op e t _ hw ih =>
    obtain ⟨hlinked, horder⟩ := ih
    obtain ⟨⟨t', r⟩, hs, he⟩ := Option.map_eq_some_iff.mp hw
    cases he
    have hshape := hlinked.shape hs
    refine ⟨hshape.linked hlinked, hshape.present hlinked horder.present,
      (hshape.linked hlinked).mapped, ?_⟩
    rw [List.map_append]
    exact hshape.recent horder.recent

/-- What one call does to the list: none if it fails; else its own key comes to the
front, of the others those evicted are gone, and these are the shortest tail that
makes room, of the list with the call's own key brought to the front. -/
structure Store.CallInOrder (s : Store) (op : Op) (t : Store) (r : Reply) : Prop where
  fails : r = .status false ∨ r = .value none → t = s
  succeeds : r ≠ .status false → r ≠ .value none → t.lru.map Node.key ++ s.evictedKeys op =
    op.key :: (s.lru.map Node.key).filter (· != op.key)
  spliced : ∀ u x, s.freeSpaceCall op = some (u, x) → u.lru.map Node.key =
    (s.lru.map Node.key).filter (· == op.key) ++ (s.lru.map Node.key).filter (· != op.key)
  shortest : ∀ u x, s.freeSpaceCall op = some (u, x) → ∃ kept dropped, u.Cut x kept dropped ∧
    s.evictedKeys op = dropped.map Node.key

theorem Store.Linked.spliced {s u : Store} (h : s.Linked) {op : Op} {x : Int32}
    (hcall : s.freeSpaceCall op = some (u, x)) : u.lru.map Node.key =
      (s.lru.map Node.key).filter (· == op.key) ++ (s.lru.map Node.key).filter (· != op.key) := by
  rcases h.freeSpaceCall_cases hcall with ⟨rfl, hm⟩ | ⟨n, hn, hk, rfl⟩
  · have hothers : ∀ k ∈ u.lru.map Node.key, k ≠ op.key := fun k hk he => by
      have := (h.mapped k).mpr hk
      simp [he, hm] at this
    rw [List.filter_eq_nil_iff.mpr fun k hk => by simpa using hothers k hk, List.nil_append,
      List.filter_eq_self.mpr fun k hk => by simpa using hothers k hk]
  · have hself : (s.lru.map Node.key).filter (· == op.key) = [n.key] := by
      rw [← hk, List.filter_beq, List.count_eq_one_of_mem h.keys_nodup (List.mem_map_of_mem hn)]
      rfl
    rw [hself, ← keys_filter_ne, ← hk]
    rfl

theorem Store.Linked.callInOrder {s t : Store} (h : s.Linked) {op : Op} {r : Reply}
    (hs : s.step op = some (t, r)) : s.CallInOrder op t r where
  fails hr := by
    cases h.shape hs with
    | written => simp at hr
    | found => simp at hr
    | unchanged => rfl
  succeeds := (h.shape hs).keys
  spliced _ _ := h.spliced
  shortest u x hcall := by
    cases h.shape hs with
    | written call cut freed =>
      cases call.symm.trans hcall
      exact ⟨_, _, cut, cut.evictedKeys call freed⟩
    | found => cases hcall
    | unchanged _ call => cases call.symm.trans hcall

/-- Calls none of which takes the front or the back of an empty list can be run, with
the list in order in every state on the way and every next call doing to it what it
should, if and only if no `Delete` hits. -/
theorem lru_order {m : Int32} {calls : List Op} (hempty : NoneTakesEmpty m calls) :
    ((PartialRun.run Store.step (Store.fresh m) calls).isSome ∧
        ∀ history s, Store.Reach m history s → history.map Prod.fst <+: calls →
          (∃ trail, Store.Trail m trail s ∧ trail.map plain = history ∧ s.InOrder trail) ∧
          ∀ op t r, s.step op = some (t, r) → s.CallInOrder op t r) ↔ DeletesMiss m calls := by
  rw [run_isSome_iff_deletesMiss, and_iff_right hempty]
  refine and_iff_left fun history s reach _ => ⟨?_, fun op t r hs => ?_⟩
  · obtain ⟨trail, htrail, hplain⟩ := reach.trail
    exact ⟨trail, htrail, hplain, htrail.inOrder.2⟩
  · exact (Store.Reach.linked reach).callInOrder hs

/-- The `Delete` finds its key and has no result. -/
theorem delete_hit_unordered :
    let calls : List Op := [.put (text "aaaaaaaaaaaaaaaaaaaa") (text "1"),
      .delete (text "aaaaaaaaaaaaaaaaaaaa"), .put (text "aaaaaaaaaaaaaaaaaaaa") (text "2")]
    NoneTakesEmpty 1000 calls ∧
      PartialRun.run Store.step (Store.fresh 1000) (calls.take 2) = none ∧
      ¬ ((PartialRun.run Store.step (Store.fresh 1000) calls).isSome ∧
        ∀ history s, Store.Reach 1000 history s → history.map Prod.fst <+: calls →
          (∃ trail, Store.Trail 1000 trail s ∧ trail.map plain = history ∧ s.InOrder trail) ∧
          ∀ op t r, s.step op = some (t, r) → s.CallInOrder op t r) := by
  intro calls
  have hdelete : (PartialRun.run Store.step (Store.fresh 1000) (calls.take 2)).isNone := by decide
  have hput : (PartialRun.run Store.step (Store.fresh 1000) calls).isSome = false := by decide
  refine ⟨noneTakesEmpty_of_each (by decide) (by decide), Option.isNone_iff_eq_none.mp hdelete, ?_⟩
  rintro ⟨hsome, _⟩
  cases hput.symm.trans hsome

theorem lru_order_eviction :
    let calls : List Op := [.put (text "a") (text "12"), .put (text "b") (text "34"),
      .delete (text "d"), .put (text "c") (text "56"), .get (text "a")]
    NoneTakesEmpty 9 calls ∧ DeletesMiss 9 calls ∧
      ∃ history s t, Store.Reach 9 history s ∧ history.map Prod.fst = calls ∧
        s.step (.put (text "c") (text "56789")) = some (t, .status true) ∧
        s.lru.map Node.key = [text "a", text "c", text "b"] ∧
        t.lru.map Node.key = [text "c", text "a"] ∧
        s.evictedKeys (.put (text "c") (text "56789")) = [text "b"] ∧
        (∃ trail, Store.Trail 9 trail s ∧ trail.map plain = history ∧ s.InOrder trail) ∧
        s.CallInOrder (.put (text "c") (text "56789")) t (.status true) := by
  intro calls
  have hempty : NoneTakesEmpty 9 calls := noneTakesEmpty_of_each (by decide) (by decide)
  have hmiss : DeletesMiss 9 calls := PartialRun.holds_of_each (by decide)
  have hrun : (PartialRun.run Store.step (Store.fresh 9) calls).isSome := by decide
  have hput : ((PartialRun.run Store.step (Store.fresh 9) calls).bind fun r =>
      (r.1.step (.put (text "c") (text "56789"))).map fun w =>
        (w.2, r.1.lru.map Node.key, w.1.lru.map Node.key,
          r.1.evictedKeys (.put (text "c") (text "56789")))) =
      some (.status true, [text "a", text "c", text "b"], [text "c", text "a"], [text "b"]) := by
    decide
  obtain ⟨⟨s, history⟩, hrun⟩ := Option.isSome_iff_exists.mp hrun
  rw [hrun, Option.bind_some] at hput
  obtain ⟨⟨t, r⟩, hs, hr⟩ := Option.map_eq_some_iff.mp hput
  obtain ⟨rfl, hbefore, hafter, hevicted⟩ : r = .status true ∧ s.lru.map Node.key = _ ∧
      t.lru.map Node.key = _ ∧ s.evictedKeys (.put (text "c") (text "56789")) = _ := by
    simpa using hr
  have reach : Store.Reach 9 history s := PartialRun.run_reach hrun
  have hcalls := PartialRun.run_calls hrun
  obtain ⟨horder, hcall⟩ := ((lru_order hempty).mpr hmiss).2 history s reach (by rw [hcalls])
  exact ⟨hempty, hmiss, history, s, t, reach, hcalls, hs, hbefore, hafter, hevicted, horder,
    hcall _ _ _ hs⟩

end Afina
