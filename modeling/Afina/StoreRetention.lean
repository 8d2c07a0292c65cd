import Afina.StoreAccounting
import Afina.StoreRoom

namespace Afina

open TailShed KeyedList

/-- A successful insertion or `Get` brings its entry to the front. -/
def recency : List (Bytes × Bytes) → Op × Reply → List (Bytes × Bytes)
  | l, (.put k v, .status true) => (k, v) :: others k l
  | l, (.putIfAbsent k v, .status true) => (k, v) :: others k l
  | l, (.get k, .value (some v)) => (k, v) :: others k l
  | l, _ => l

/-- All entries accepted so far, evicted or not, by the time of their last
successful insertion or `Get`, most recent first. -/
def accepted (history : List (Op × Reply)) : List (Bytes × Bytes) := history.foldl recency []

/-- The key was passed to a `Put` or `PutIfAbsent`, successful or not. -/
def Offered (history : List (Op × Reply)) (k : Bytes) : Prop :=
  ∃ e ∈ history, ∃ v, e.1 = .put k v ∨ e.1 = .putIfAbsent k v

/-- The calls of a run that inserts every key once. -/
def Store.Allows (s : Store) (history : List (Op × Reply)) : Op → Prop
  | .put k _ => ¬ Offered history k
  | .putIfAbsent k _ => ¬ Offered history k ∨ (s.cacheMap k).isSome
  | .set _ _ => False
  | .delete _ => False
  | .get _ => True

inductive Store.NewKeys (m : Int32) : List (Op × Reply) → Store → Prop
  | start : NewKeys m [] (Store.fresh m)
  | next {history s op r t} : NewKeys m history s → s.Allows history op →
      s.step op = some (t, r) → NewKeys m (history ++ [(op, r)]) t

theorem Store.NewKeys.reach {m : Int32} {history : List (Op × Reply)} {s : Store}
    (run : Store.NewKeys m history s) : Store.Reach m history s := by
  induction run with
  | start => exact .start
  | next _ _ hs ih => exact .next ih hs

theorem accepted_snoc (history : List (Op × Reply)) (e : Op × Reply) :
    accepted (history ++ [e]) = recency (accepted history) e := by
  simp [accepted]

theorem recency_quiet {l : List (Bytes × Bytes)} {op : Op} {r : Reply} (h : r ≠ .status true)
    (h' : ∀ v, r ≠ .value (some v)) : recency l (op, r) = l := by
  unfold recency
  split
  next he => exact absurd (congrArg Prod.snd he) h
  next he => exact absurd (congrArg Prod.snd he) h
  next v he => exact absurd (congrArg Prod.snd he) (h' v)
  next => rfl

theorem Offered.snoc {history : List (Op × Reply)} {k : Bytes} (h : Offered history k)
    (e : Op × Reply) : Offered (history ++ [e]) k := by
  obtain ⟨e', he', hv⟩ := h
  exact ⟨e', List.mem_append_left _ he', hv⟩

theorem offered_now {history : List (Op × Reply)} {k v : Bytes} {op : Op}
    (h : op = .put k v ∨ op = .putIfAbsent k v) (r : Reply) : Offered (history ++ [(op, r)]) k :=
  ⟨(op, r), by simp, v, h⟩

/-- What a run with new keys keeps: the entries held are the longest front part
of the accepted ones that fits, and the counter is right. -/
structure Retained (m : Int32) (history : List (Op × Reply)) (c : Cache) : Prop where
  limit : c.limit = m
  longest : LongestWithin entrySize m.toInt (accepted history) c.entries
  distinct : Distinct (accepted history)
  offered : ∀ e ∈ accepted history, Offered history e.1
  counts : c.Counts

/-- The condition on a call, for the recency list. -/
def Cache.Allows (c : Cache) (history : List (Op × Reply)) : Op → Prop
  | .put k _ => ¬ Offered history k
  | .putIfAbsent k _ => ¬ Offered history k ∨ (c.contents k).isSome
  | .set _ _ => False
  | .delete _ => False
  | .get _ => True

theorem Store.Valid.allows {s : Store} (h : s.Valid) {history : List (Op × Reply)} {op : Op}
    (ha : s.Allows history op) : s.cache.Allows history op := by
  cases op with
  | put k v => exact ha
  | putIfAbsent k v =>
    refine ha.imp_right fun hm => ?_
    rcases h.linked.present_cases k with ⟨hnone, _⟩ | ⟨n, _, _, _, hc⟩
    · simp [hnone] at hm
    · simp [hc]
  | set k v => exact ha
  | delete k => exact ha
  | get k => exact ha

theorem Retained.absent {m : Int32} {history : List (Op × Reply)} {c : Cache}
    (h : Retained m history c) {k : Bytes} (hk : ¬ Offered history k) :
    (accepted history).lookup k = none ∧ c.contents k = none := by
  have habsent : ∀ v, (k, v) ∉ accepted history := fun v hv => hk (h.offered _ hv)
  refine ⟨lookup_eq_none.mpr habsent, lookup_eq_none.mpr fun v hv => ?_⟩
  exact habsent v (h.longest.front.subset hv)

theorem Retained.total_le {m : Int32} {history : List (Op × Reply)} {c : Cache}
    (h : Retained m history c) : (c.total : Int) ≤ m.toInt := h.longest.within

/-- A write of such a run is an insertion of a key that was never offered. -/
theorem Retained.insertion {m : Int32} {history : List (Op × Reply)} {c : Cache}
    (h : Retained m history c) {op : Op} (ha : c.Allows history op) {extra change : Int32}
    (hr : c.request op = some (extra, change)) :
    (op = .put op.key op.value ∨ op = .putIfAbsent op.key op.value) ∧ ¬ Offered history op.key ∧
      (entrySize (op.key, op.value) : Int) ≤ m.toInt ∧
      change = narrow (entrySize (op.key, op.value)) := by
  obtain ⟨hadm, hcase⟩ := Cache.request_cases hr
  rw [Cache.Admits, h.limit] at hadm
  rcases hcase with ⟨hc, hop, _, hchange⟩ | ⟨old, hc, _, ⟨hop, _⟩ | ⟨hop, _⟩⟩
  · refine ⟨hop, ?_, hadm, hchange⟩
    rcases hop with hop | hop
    · rw [hop] at ha
      exact ha
    · rw [hop] at ha
      exact ha.resolve_right (by simp [hc])
  · rw [hop] at ha
    rw [(h.absent ha).2] at hc
    cases hc
  · rw [hop] at ha
    exact ha.elim

theorem Retained.excess_eq {m : Int32} (hm : m.toInt < 2 ^ 30) {history : List (Op × Reply)}
    {c : Cache} (h : Retained m history c) (hsound : c.Sound) {op : Op}
    (ha : c.Allows history op) {extra change : Int32} (hr : c.request op = some (extra, change)) :
    c.excess extra = c.total + entrySize (op.key, op.value) - m.toInt := by
  obtain ⟨_, hnew, hsize, _⟩ := h.insertion ha hr
  have htotal := hsound.total_eq op.key
  rw [Cache.own_of_none (h.absent hnew).2] at htotal
  have hle := h.total_le
  rw [hsound.excess_of_counts h.counts hr, toInt_narrow (by omega) (by omega), h.limit]
  omega

theorem Retained.keepsCount {m : Int32} (hm : m.toInt < 2 ^ 30) {history : List (Op × Reply)}
    {c : Cache} (h : Retained m history c) {op : Op} (ha : c.Allows history op) :
    c.KeepsCount op := by
  have hle := h.total_le
  have hcounts := h.counts
  unfold Cache.Counts at hcounts
  cases op with
  | put k v =>
    intro hadm
    rw [Cache.Admits, h.limit] at hadm
    exact ⟨fun _ => by omega, fun old hold => by simp [(h.absent ha).2] at hold⟩
  | putIfAbsent k v =>
    intro hadm _
    rw [Cache.Admits, h.limit] at hadm
    omega
  | set k v => exact ha.elim
  | delete k => exact ha.elim
  | get k => trivial

theorem Retained.accepts {m : Int32} {history : List (Op × Reply)} {c : Cache}
    (h : Retained m history c) {op : Op} (hop : op = .put op.key op.value ∨
      op = .putIfAbsent op.key op.value) (hnew : ¬ Offered history op.key) :
    accepted (history ++ [(op, .status true)]) = (op.key, op.value) :: accepted history := by
  have hsame := others_eq_self (h.absent hnew).1
  rw [accepted_snoc]
  generalize op.key = k at *
  generalize op.value = v at *
  rcases hop with rfl | rfl <;> simp [recency, hsame]

theorem Retained.step {m : Int32} (hm : m.toInt < 2 ^ 30) {history : List (Op × Reply)}
    {c c' : Cache} (h : Retained m history c) (hsound : c.Sound) {op : Op} {r : Reply}
    (ha : c.Allows history op) (hs : c.step op = some (c', r)) :
    Retained m (history ++ [(op, r)]) c' := by
  have hcounts := Cache.step_forall_of_exists
    ((hsound.keepsCount_iff h.counts op).mpr (h.keepsCount hm ha)) c' r hs
  rcases Cache.step_cases hs with ⟨extra, change, kept, hr, rfl, hk, rfl⟩ |
    ⟨k, v, rfl, rfl, hc, rfl⟩ | ⟨rfl, _, hr, hr'⟩
  · obtain ⟨hop, hnew, _, _⟩ := h.insertion ha hr
    obtain ⟨hfirst, hcold⟩ := h.absent hnew
    have hacc := h.accepts hop hnew
    have hshed : shed entrySize (weight entrySize c.entries + entrySize (op.key, op.value) - m.toInt)
        c.entries = some kept := by
      rw [h.excess_eq hm hsound ha hr, others_eq_self hcold] at hk
      exact hk
    refine ⟨h.limit, ?_, ?_, ?_, hcounts⟩
    · rw [hacc]
      exact h.longest.cons_shed hshed
    · rw [hacc]
      exact h.distinct.cons hfirst
    · rw [hacc]
      intro e he
      rcases List.mem_cons.mp he with rfl | he
      · exact offered_now hop _
      · exact (h.offered e he).snoc _
  · have hacc : accepted (history ++ [(.get k, .value (some v))]) =
        (k, v) :: others k (accepted history) := by rw [accepted_snoc]; rfl
    have hmem : (k, v) ∈ accepted history := h.longest.front.subset (mem_of_lookup hc)
    refine ⟨h.limit, ?_, ?_, ?_, hcounts⟩
    · rw [hacc]
      exact longestWithin_touch h.longest h.distinct hc
    · rw [hacc]
      exact (h.distinct.others k).cons (lookup_others_self k _)
    · rw [hacc]
      intro e he
      rcases List.mem_cons.mp he with rfl | he
      · exact (h.offered _ hmem).snoc _
      · exact (h.offered e (mem_others.mp he).1).snoc _
  · have hacc : accepted (history ++ [(op, r)]) = accepted history := by
      rw [accepted_snoc, recency_quiet hr hr']
    refine ⟨h.limit, by rw [hacc]; exact h.longest, by rw [hacc]; exact h.distinct, ?_, hcounts⟩
    rw [hacc]
    exact fun e he => (h.offered e he).snoc _

theorem Store.NewKeys.retained {m : Int32} (hm : 0 ≤ m) (hm' : m.toInt < 2 ^ 30)
    {history : List (Op × Reply)} {s : Store} (run : Store.NewKeys m history s) :
    Retained m history s.cache := by
  induction run with
  | start =>
    refine ⟨rfl, ⟨List.nil_prefix, ?_, fun other ho _ => ho⟩, List.nodup_nil, by simp [accepted], rfl⟩
    exact (Store.fresh_valid hm).limit_nonneg
  | next run ha hs ih =>
    have hvalid := Store.Reach.valid hm run.reach
    exact ih.step hm' hvalid.sound (hvalid.allows ha) (hvalid.cache_step hs)

theorem Retained.makesRoom {m : Int32} (hm : m.toInt < 2 ^ 30) {history : List (Op × Reply)}
    {c : Cache} (h : Retained m history c) (hsound : c.Sound) {op : Op}
    (ha : c.Allows history op) : c.MakesRoom op := by
  intro plan hplan
  obtain ⟨_, hnew, hsize, _⟩ := h.insertion ha hplan
  have htotal := hsound.total_eq op.key
  rw [Cache.own_of_none (h.absent hnew).2] at htotal
  rw [h.excess_eq hm hsound ha hplan]
  omega

theorem Cache.Allows.deleteMisses {c : Cache} {history : List (Op × Reply)} {op : Op}
    (h : c.Allows history op) : c.DeleteMisses op := by
  cases op with
  | delete k => exact h.elim
  | _ => trivial

/-- An insertion of a new key succeeds exactly when its entry fits the limit. -/
theorem Retained.reply {m : Int32} {history : List (Op × Reply)} {c c' : Cache}
    (h : Retained m history c) {op : Op} {r : Reply} {k v : Bytes}
    (hop : op = .put k v ∨ op = .putIfAbsent k v) (hnew : ¬ Offered history k)
    (hs : c.step op = some (c', r)) : r = .status (decide ((entrySize (k, v) : Int) ≤ m.toInt)) := by
  have hc := (h.absent hnew).2
  by_cases hadm : c.Admits k v
  · have hr : c.request op = some (narrow (entrySize (k, v)), narrow (entrySize (k, v))) := by
      rcases hop with rfl | rfl <;> simp [Cache.request, hadm, hc]
    rw [Cache.step_of_request hr] at hs
    obtain ⟨kept, _, he⟩ := Option.map_eq_some_iff.mp hs
    cases he
    rw [Cache.Admits, h.limit] at hadm
    simp [hadm]
  · have hr : c.step op = some (c, .status false) := by
      rcases hop with rfl | rfl <;>
        simp [Cache.step, Cache.request, hadm, Cache.settle, Cache.DeleteMisses]
    cases hr.symm.trans hs
    rw [Cache.Admits, h.limit] at hadm
    simp [hadm]

/-- Over every run that inserts each key once, the store holds exactly the
longest front part of the accepted entries that fits the limit, the counter is
its size, and the next call is defined: `FreeSpace` never reaches an empty list,
and a new key is accepted exactly when its entry alone fits. -/
theorem longest_front_retained {m : Int32} (hm : 0 ≤ m) (hm' : m.toInt < 2 ^ 30)
    {history : List (Op × Reply)} {s : Store} (run : Store.NewKeys m history s) :
    LongestWithin entrySize m.toInt (accepted history) (s.lru.map fun n => (n.key, n.value)) ∧
    s.currentSize.toInt = weight entrySize (s.lru.map fun n => (n.key, n.value)) ∧
    ∀ op, s.Allows history op → s.EvictionDefined op ∧ ∃ t r, s.step op = some (t, r) ∧
      ∀ k v, op = .put k v ∨ op = .putIfAbsent k v → ¬ Offered history k →
        r = .status (decide ((entrySize (k, v) : Int) ≤ m.toInt)) := by
  have hvalid := Store.Reach.valid hm run.reach
  have hret := run.retained hm hm'
  refine ⟨hret.longest, hret.counts, fun op ha => ?_⟩
  have hallows := hvalid.allows ha
  have hroom := hret.makesRoom hm' hvalid.sound hallows
  refine ⟨(hvalid.evictionDefined_iff op).mpr hroom, ?_⟩
  obtain ⟨⟨c, r⟩, hc⟩ := Option.isSome_iff_exists.mp
    ((s.cache.step_isSome_iff op).mpr ⟨hroom, hallows.deleteMisses⟩)
  have hstep := hc
  rw [← hvalid.step_refines op] at hc
  obtain ⟨⟨t, r'⟩, hs, he⟩ := Option.map_eq_some_iff.mp hc
  cases he
  exact ⟨t, _, hs, fun k v hop hnew => hret.reply hop hnew hstep⟩

theorem longest_front_retained_of_three :
    ∃ history s, Store.NewKeys 9 history s ∧
      history.map Prod.fst = [.put (text "a") (text "123"), .putIfAbsent (text "b") (text "45"),
        .get (text "a"), .put (text "c") (text "6789")] ∧
      accepted history = [(text "c", text "6789"), (text "a", text "123"), (text "b", text "45")] ∧
      s.lru.map (fun n => (n.key, n.value)) = [(text "c", text "6789"), (text "a", text "123")] ∧
      LongestWithin entrySize 9 (accepted history) (s.lru.map fun n => (n.key, n.value)) := by
  let calls : List Op := [.put (text "a") (text "123"), .putIfAbsent (text "b") (text "45"),
    .get (text "a"), .put (text "c") (text "6789")]
  have hrun : ((PartialRun.run Store.step (Store.fresh 9) calls).map fun r =>
      (accepted r.2, r.1.lru.map fun n => (n.key, n.value))) =
      some ([(text "c", text "6789"), (text "a", text "123"), (text "b", text "45")],
        [(text "c", text "6789"), (text "a", text "123")]) := by decide
  obtain ⟨⟨s, history⟩, hrun, he⟩ := Option.map_eq_some_iff.mp hrun
  obtain ⟨hacc, hheld⟩ := Prod.mk.inj he
  obtain ⟨s₁, r₁, _, h₁, rest₁, rfl⟩ := PartialRun.run_cons_eq_some hrun
  obtain ⟨s₂, r₂, _, h₂, rest₂, rfl⟩ := PartialRun.run_cons_eq_some rest₁
  obtain ⟨s₃, r₃, _, h₃, rest₃, rfl⟩ := PartialRun.run_cons_eq_some rest₂
  obtain ⟨s₄, r₄, _, h₄, rest₄, rfl⟩ := PartialRun.run_cons_eq_some rest₃
  cases Option.some.inj rest₄
  have hne : text "b" ≠ text "a" ∧ text "c" ≠ text "a" ∧ text "c" ≠ text "b" := by decide
  have run₁ := Store.NewKeys.next .start (by simp [Store.Allows, Offered]) h₁
  have run₂ := run₁.next (by simp [Store.Allows, Offered, hne.1.symm]) h₂
  have run₃ := run₂.next (by simp [Store.Allows]) h₃
  have run₄ := run₃.next (by simp [Store.Allows, Offered, hne.2.1.symm, hne.2.2.symm]) h₄
  exact ⟨_, _, run₄, rfl, hacc, hheld, (longest_front_retained (by decide) (by decide) run₄).1⟩

end Afina
