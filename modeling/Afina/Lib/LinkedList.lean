import Mathlib.Data.List.Nodup

namespace LinkedList

section

variable {ν : Type}

/-- Following `next` from `head` passes these nodes and ends in a null pointer. -/
def Forward (next : ν → Option ν) : Option ν → List ν → Prop
  | head, [] => head = none
  | head, x :: xs => head = some x ∧ Forward next (next x) xs

/-- Each node's `prev` is the node before it, and the first one's is `before`. -/
def Backward (prev : ν → Option ν) : Option ν → List ν → Prop
  | _, [] => True
  | before, x :: xs => prev x = before ∧ Backward prev (some x) xs

/-- A doubly linked list with these nodes behind its head. -/
structure Linked (next prev : ν → Option ν) (head : Option ν) (xs : List ν) : Prop where
  forward : Forward next head xs
  backward : Backward prev none xs

/-- The nodes passed by at most `fuel` steps. -/
def walk (next : ν → Option ν) : Nat → Option ν → List ν
  | fuel + 1, some x => x :: walk next fuel (next x)
  | _, _ => []

variable {next next' prev prev' : ν → Option ν} {head before : Option ν} {xs ys : List ν} {c x : ν}

theorem Forward.unique (h : Forward next head xs) (h' : Forward next head ys) : xs = ys := by
  induction xs generalizing head ys with
  | nil =>
    cases ys with
    | nil => rfl
    | cons y ys => exact nomatch h.symm.trans h'.1
  | cons x xs ih =>
    cases ys with
    | nil => exact nomatch h.1.symm.trans h'
    | cons y ys =>
      obtain rfl := Option.some.inj (h.1.symm.trans h'.1)
      rw [ih h.2 h'.2]

theorem Forward.drop {front : List ν} (h : Forward next head (front ++ x :: xs)) :
    Forward next (next x) xs := by
  induction front generalizing head with
  | nil => exact h.2
  | cons y front ih => exact ih h.2

/-- A chain that ends passes no node twice: behind both visits lies the same. -/
theorem Forward.nodup (h : Forward next head xs) : xs.Nodup := by
  induction xs generalizing head with
  | nil => exact List.nodup_nil
  | cons x xs ih =>
    refine List.nodup_cons.mpr ⟨fun hx => ?_, ih h.2⟩
    obtain ⟨front, back, rfl⟩ := List.append_of_mem hx
    have hback := congrArg List.length (h.2.unique h.2.drop)
    simp only [List.length_append, List.length_cons] at hback
    omega

theorem Forward.walk (h : Forward next head xs) {fuel : Nat} (hfuel : xs.length ≤ fuel) :
    LinkedList.walk next fuel head = xs := by
  induction xs generalizing head fuel with
  | nil =>
    cases fuel <;> simp [LinkedList.walk, show head = none from h]
  | cons x xs ih =>
    cases fuel with
    | zero => simp at hfuel
    | succ fuel =>
      rw [h.1, LinkedList.walk, ih h.2 (Nat.le_of_succ_le_succ hfuel)]

theorem Forward.head_mem (h : Forward next (some x) xs) : x ∈ xs := by
  cases xs with
  | nil => cases h
  | cons y ys => exact Option.some.inj h.1 ▸ List.mem_cons_self

theorem Forward.next_mem (h : Forward next head xs) (hc : c ∈ xs) (hx : next c = some x) :
    x ∈ xs := by
  obtain ⟨front, back, rfl⟩ := List.append_of_mem hc
  have hback := h.drop
  rw [hx] at hback
  simp [hback.head_mem]

theorem Forward.congr (h : Forward next head xs) (hn : ∀ x ∈ xs, next' x = next x) :
    Forward next' head xs := by
  induction xs generalizing head with
  | nil => exact h
  | cons x xs ih =>
    refine ⟨h.1, ?_⟩
    rw [hn x List.mem_cons_self]
    exact ih h.2 fun y hy => hn y (List.mem_cons_of_mem x hy)

theorem Backward.congr (h : Backward prev before xs) (hp : ∀ x ∈ xs, prev' x = prev x) :
    Backward prev' before xs := by
  induction xs generalizing before with
  | nil => trivial
  | cons x xs ih =>
    exact ⟨(hp x List.mem_cons_self).trans h.1, ih h.2 fun y hy => hp y (List.mem_cons_of_mem x hy)⟩

theorem Backward.prev_mem (h : Backward prev before xs) (hc : c ∈ xs) :
    prev c = before ∨ ∃ x ∈ xs, prev c = some x := by
  induction xs generalizing before with
  | nil => cases hc
  | cons y ys ih =>
    obtain rfl | hc := List.mem_cons.mp hc
    · exact Or.inl h.1
    · obtain hy | ⟨x, hx, hp⟩ := ih h.2 hc
      · exact Or.inr ⟨y, List.mem_cons_self, hy⟩
      · exact Or.inr ⟨x, List.mem_cons_of_mem y hx, hp⟩

/-- On a list the node before `c` is the one that leads to `c`. -/
theorem prev_eq_iff_next_eq (hf : Forward next head (x :: xs)) (hb : Backward prev before (x :: xs))
    (hc : c ∈ xs) : prev c = some x ↔ next x = some c := by
  cases xs with
  | nil => cases hc
  | cons y ys =>
    have hy : next x = some y := hf.2.1
    have hnodup := hf.nodup
    obtain rfl | hcs := List.mem_cons.mp hc
    · exact ⟨fun _ => hy, fun _ => hb.2.1⟩
    · constructor
      · intro hp
        obtain heq | ⟨z, hz, heq⟩ := hb.2.2.prev_mem hcs <;>
          obtain rfl := Option.some.inj (hp.symm.trans heq)
        · simp at hnodup
        · simp [hz] at hnodup
      · intro hn
        obtain rfl := Option.some.inj (hn.symm.trans hy)
        exact absurd hcs (List.nodup_cons.mp (List.nodup_cons.mp hnodup).2).1

theorem Linked.congr (h : Linked next prev head xs) (hn : ∀ x ∈ xs, next' x = next x)
    (hp : ∀ x ∈ xs, prev' x = prev x) : Linked next' prev' head xs :=
  ⟨h.forward.congr hn, h.backward.congr hp⟩

theorem Linked.prev_mem (h : Linked next prev head xs) (hc : c ∈ xs) (hp : prev c = some x) :
    x ∈ xs := by
  obtain hnone | ⟨y, hy, heq⟩ := h.backward.prev_mem hc
  · exact nomatch hnone.symm.trans hp
  · exact Option.some.inj (heq.symm.trans hp) ▸ hy

/-- The head is the only node of the list without one before it. -/
theorem Linked.head_iff (h : Linked next prev head xs) (hc : c ∈ xs) :
    head = some c ↔ prev c = none := by
  cases xs with
  | nil => cases hc
  | cons x xs =>
    obtain ⟨⟨rfl, hf⟩, hx, hb⟩ := h
    constructor
    · intro hhead
      exact Option.some.inj hhead ▸ hx
    · intro hp
      obtain rfl | hc := List.mem_cons.mp hc
      · rfl
      · obtain heq | ⟨y, _, heq⟩ := hb.prev_mem hc <;> exact nomatch hp.symm.trans heq

variable [DecidableEq ν]

theorem Linked.push (h : Linked next prev head xs) (hnext : next' c = head) (hprev : prev' c = none)
    (hn : ∀ x ∈ xs, next' x = next x)
    (hp : ∀ x ∈ xs, prev' x = if head = some x then some c else prev x) :
    Linked next' prev' (some c) (c :: xs) := by
  refine ⟨⟨rfl, ?_⟩, hprev, ?_⟩
  · rw [hnext]
    exact h.forward.congr hn
  · cases xs with
    | nil => trivial
    | cons x xs =>
      have hx := hp x List.mem_cons_self
      rw [if_pos h.forward.1] at hx
      refine ⟨hx, h.backward.2.congr fun y hy => ?_⟩
      have hne : head ≠ some y := by
        intro hhead
        obtain rfl := Option.some.inj (h.forward.1.symm.trans hhead)
        exact (List.nodup_cons.mp h.forward.nodup).1 hy
      rw [hp y (List.mem_cons_of_mem x hy), if_neg hne]

/-- The induction behind `Linked.unlink`, on a part of the list behind `before`. -/
theorem unlink_part (hf : Forward next head xs) (hb : Backward prev before xs) (hc : c ∈ xs)
    (hbefore : ∀ x ∈ xs, before ≠ some x)
    (hn : ∀ x ∈ xs, x ≠ c → next' x = if prev c = some x then next c else next x)
    (hp : ∀ x ∈ xs, x ≠ c → prev' x = if next c = some x then prev c else prev x) :
    Forward next' (if head = some c then next c else head) (xs.erase c) ∧
      Backward prev' before (xs.erase c) := by
  induction xs generalizing head before with
  | nil => cases hc
  | cons x xs ih =>
    have hnodup := List.nodup_cons.mp hf.nodup
    by_cases hxc : x = c
    · subst hxc
      rw [if_pos hf.1, List.erase_cons_head]
      constructor
      · refine hf.2.congr fun y hy => ?_
        have hne : y ≠ x := fun heq => hnodup.1 (heq ▸ hy)
        rw [hn y (List.mem_cons_of_mem x hy) hne, hb.1,
          if_neg (hbefore y (List.mem_cons_of_mem x hy))]
      · cases xs with
        | nil => trivial
        | cons y ys =>
          have hy : next x = some y := hf.2.1
          have hyx : y ≠ x := fun heq => hnodup.1 (heq ▸ List.mem_cons_self)
          refine ⟨?_, hb.2.2.congr fun z hz => ?_⟩
          · rw [hp y (by simp) hyx, if_pos hy, hb.1]
          · have hzx : z ≠ x := fun heq => hnodup.1 (heq ▸ List.mem_cons_of_mem y hz)
            have hzy : z ≠ y := fun heq => (List.nodup_cons.mp hnodup.2).1 (heq ▸ hz)
            rw [hp z (by simp [hz]) hzx, hy, if_neg]
            exact fun heq => hzy (Option.some.inj heq).symm
    · have hcs : c ∈ xs := (List.mem_cons.mp hc).resolve_left (Ne.symm hxc)
      have hhead : head ≠ some c := fun heq => hxc (Option.some.inj (hf.1.symm.trans heq))
      rw [if_neg hhead, List.erase_cons_tail (by simpa using hxc)]
      obtain ⟨hforward, hbackward⟩ := ih hf.2 hb.2 hcs
        (fun y hy heq => hnodup.1 (Option.some.inj heq ▸ hy))
        (fun y hy => hn y (List.mem_cons_of_mem x hy))
        (fun y hy => hp y (List.mem_cons_of_mem x hy))
      refine ⟨⟨hf.1, ?_⟩, ?_, hbackward⟩
      · rw [hn x List.mem_cons_self hxc]
        simpa only [prev_eq_iff_next_eq hf hb hcs] using hforward
      · have hne : next c ≠ some x := fun heq => hnodup.1 (hf.2.next_mem hcs heq)
        rw [hp x List.mem_cons_self hxc, if_neg hne, hb.1]

/-- Closing the gap around a node takes it off the list. -/
theorem Linked.unlink (h : Linked next prev head xs) (hc : c ∈ xs)
    (hn : ∀ x ∈ xs, x ≠ c → next' x = if prev c = some x then next c else next x)
    (hp : ∀ x ∈ xs, x ≠ c → prev' x = if next c = some x then prev c else prev x) :
    Linked next' prev' (if head = some c then next c else head) (xs.erase c) := by
  obtain ⟨hforward, hbackward⟩ :=
    unlink_part h.forward h.backward hc (fun _ _ heq => nomatch heq) hn hp
  exact ⟨hforward, hbackward⟩

/-- A list of live nodes, while the nodes off the list have none before them. -/
structure Chained (head : Option ν) (live : ν → Prop) (next prev : ν → Option ν) (xs : List ν) :
    Prop where
  linked : Linked next prev head xs
  live : ∀ x ∈ xs, live x
  off : ∀ x, x ∉ xs → prev x = none

namespace Chained

variable {live : ν → Prop}

omit [DecidableEq ν] in
theorem head_ne (h : Chained head live next prev xs) (hx : x ∉ xs) : head ≠ some x := by
  rintro rfl
  exact hx h.linked.forward.head_mem

theorem push (h : Chained head live next prev xs) (hc : ¬ live c) :
    Chained (some c) (fun x => x = c ∨ live x) (fun x => if x = c then head else next x)
      (fun x => if head = some x then some c else if x = c then none else prev x) (c :: xs) := by
  have hcs : c ∉ xs := fun hm => hc (h.live c hm)
  have hne : ∀ x ∈ xs, x ≠ c := fun x hx heq => hcs (heq ▸ hx)
  refine ⟨h.linked.push (if_pos rfl) ?_ ?_ ?_, ?_, ?_⟩
  · rw [if_neg (h.head_ne hcs), if_pos rfl]
  · exact fun x hx => if_neg (hne x hx)
  · intro x hx
    rw [if_neg (hne x hx)]
  · intro x hx
    exact (List.mem_cons.mp hx).imp_right (h.live x)
  · intro x hx
    obtain ⟨hxc, hxs⟩ := not_or.mp (mt List.mem_cons.mpr hx)
    rw [if_neg (h.head_ne hxs), if_neg hxc, h.off x hxs]

theorem pop (h : Chained (some c) live next prev xs) :
    Chained (next c) live next (fun x => if next c = some x then none else prev x)
      (xs.erase c) := by
  have hc := h.linked.forward.head_mem
  have hprev : prev c = none := (h.linked.head_iff hc).mp rfl
  refine ⟨?_, fun x hx => h.live x (List.mem_of_mem_erase hx), ?_⟩
  · have hlinked : Linked next (fun x => if next c = some x then none else prev x)
        (if some c = some c then next c else some c) (xs.erase c) :=
      h.linked.unlink hc (fun x _ _ => by simp [hprev]) (fun x _ _ => by rw [hprev])
    rwa [if_pos rfl] at hlinked
  · intro x hx
    split
    next => rfl
    next =>
      by_cases hxc : x = c
      · rw [hxc, hprev]
      · exact h.off x fun hxs => hx ((List.mem_erase_of_ne hxc).mpr hxs)

theorem unlink (h : Chained head live next prev xs) (hc : c ∈ xs) :
    Chained (if head = some c then next c else head) (fun x => x ≠ c ∧ live x)
      (fun x => if x = c then none else if prev c = some x then next c else next x)
      (fun x => if x = c then none else if next c = some x then prev c else prev x)
      (xs.erase c) := by
  refine ⟨h.linked.unlink hc ?_ ?_, ?_, ?_⟩
  · exact fun x _ hx => if_neg hx
  · exact fun x _ hx => if_neg hx
  · intro x hx
    obtain ⟨hxc, hxs⟩ := h.linked.forward.nodup.mem_erase_iff.mp hx
    exact ⟨hxc, h.live x hxs⟩
  · intro x hx
    by_cases hxc : x = c
    · rw [if_pos hxc]
    · have hxs : x ∉ xs := fun hxs => hx ((List.mem_erase_of_ne hxc).mpr hxs)
      rw [if_neg hxc, if_neg fun heq => hxs (h.linked.forward.next_mem hc heq), h.off x hxs]

/-- Unlinking a node off the list with an old `next`; the list does not stand it
where that leads into it behind its head. -/
theorem unlink_off (h : Chained head live next prev xs) (hc : c ∉ xs)
    (hnext : ∀ x ∈ xs, next c = some x → head = some x) :
    Chained (if head = some c then next c else head) (fun x => x ≠ c ∧ live x)
      (fun x => if x = c then none else if prev c = some x then next c else next x)
      (fun x => if x = c then none else if next c = some x then prev c else prev x) xs := by
  have hne : ∀ x ∈ xs, x ≠ c := fun x hx heq => hc (heq ▸ hx)
  rw [if_neg (h.head_ne hc), h.off c hc]
  refine ⟨h.linked.congr ?_ ?_, fun x hx => ⟨hne x hx, h.live x hx⟩, ?_⟩
  · intro x hx
    simp [hne x hx]
  · intro x hx
    rw [if_neg (hne x hx)]
    split
    next heq => exact ((h.linked.head_iff hx).mp (hnext x hx heq)).symm
    next => rfl
  · intro x hx
    split
    next => rfl
    next =>
      split
      next => rfl
      next => exact h.off x hx

end Chained

end

end LinkedList
