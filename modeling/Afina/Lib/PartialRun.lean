import Mathlib.Algebra.Ring.Nat
import Mathlib.Data.List.Infix

namespace PartialRun

section

variable {σ α β : Type} (step : σ → α → Option (σ × β))

/-- States a partial step function reaches, with the calls made so far and
their replies, oldest first. A call without a result is never passed. -/
inductive Reach (initial : σ) : List (α × β) → σ → Prop
  | start : Reach initial [] initial
  | next {history s a b t} : Reach initial history s → step s a = some (t, b) →
      Reach initial (history ++ [(a, b)]) t

/-- Run a whole list of calls; undefined as soon as one of them is. -/
def run : σ → List α → Option (σ × List (α × β))
  | s, [] => some (s, [])
  | s, a :: rest => do
    let (t, b) ← step s a
    let (last, history) ← run t rest
    pure (last, (a, b) :: history)

variable {step}

theorem run_cons_eq_some {s last : σ} {a : α} {rest : List α} {history : List (α × β)}
    (h : run step s (a :: rest) = some (last, history)) :
    ∃ t b later, step s a = some (t, b) ∧ run step t rest = some (last, later) ∧
      history = (a, b) :: later := by
  obtain ⟨⟨t, b⟩, hs, h⟩ := Option.bind_eq_some_iff.mp h
  obtain ⟨⟨last', later⟩, hr, h⟩ := Option.bind_eq_some_iff.mp h
  cases Option.some.inj h
  exact ⟨t, b, later, hs, hr, rfl⟩

theorem run_cons {s t last : σ} {a : α} {b : β} {rest : List α} {later : List (α × β)}
    (hs : step s a = some (t, b)) (hr : run step t rest = some (last, later)) :
    run step s (a :: rest) = some (last, (a, b) :: later) := by
  simp [run, hs, hr]

theorem Reach.of_run {initial s last : σ} {before history : List (α × β)} {calls : List α}
    (reach : Reach step initial before s) (h : run step s calls = some (last, history)) :
    Reach step initial (before ++ history) last := by
  induction calls generalizing s before history with
  | nil =>
    cases Option.some.inj h
    simpa using reach
  | cons a rest ih =>
    obtain ⟨t, b, later, hs, hr, rfl⟩ := run_cons_eq_some h
    simpa using ih (.next reach hs) hr

theorem run_reach {initial last : σ} {history : List (α × β)} {calls : List α}
    (h : run step initial calls = some (last, history)) : Reach step initial history last := by
  simpa using Reach.of_run Reach.start h

theorem run_calls {s last : σ} {calls : List α} {history : List (α × β)}
    (h : run step s calls = some (last, history)) : history.map Prod.fst = calls := by
  induction calls generalizing s history with
  | nil => cases Option.some.inj h; rfl
  | cons a rest ih =>
    obtain ⟨t, b, later, _, hr, rfl⟩ := run_cons_eq_some h
    simp [ih hr]

theorem run_append_eq_some {s last : σ} {first second : List α} {history : List (α × β)}
    (h : run step s (first ++ second) = some (last, history)) :
    ∃ mid before after, run step s first = some (mid, before) ∧
      run step mid second = some (last, after) ∧ history = before ++ after := by
  induction first generalizing s history with
  | nil => exact ⟨s, [], history, rfl, h, rfl⟩
  | cons a rest ih =>
    obtain ⟨t, b, later, hs, hr, rfl⟩ := run_cons_eq_some h
    obtain ⟨mid, before, after, hb, ha, rfl⟩ := ih hr
    exact ⟨mid, (a, b) :: before, after, run_cons hs hb, ha, rfl⟩

theorem run_append {s mid last : σ} {first second : List α} {before after : List (α × β)}
    (hb : run step s first = some (mid, before)) (ha : run step mid second = some (last, after)) :
    run step s (first ++ second) = some (last, before ++ after) := by
  induction first generalizing s before with
  | nil =>
    cases Option.some.inj hb
    exact ha
  | cons a rest ih =>
    obtain ⟨t, b, later, hs, hr, rfl⟩ := run_cons_eq_some hb
    exact run_cons hs (ih hr)

theorem run_snoc {s last t : σ} {a : α} {b : β} {calls : List α} {history : List (α × β)}
    (h : run step s calls = some (last, history)) (hs : step last a = some (t, b)) :
    run step s (calls ++ [a]) = some (t, history ++ [(a, b)]) :=
  run_append h (run_cons hs rfl)

theorem step_of_run_snoc {s last t : σ} {a : α} {calls : List α} {history all : List (α × β)}
    (h : run step s calls = some (last, history)) (h' : run step s (calls ++ [a]) = some (t, all)) :
    ∃ b, step last a = some (t, b) := by
  obtain ⟨mid, _, _, hmid, hrest, _⟩ := run_append_eq_some h'
  cases hmid.symm.trans h
  obtain ⟨t', b, _, hs, hend, _⟩ := run_cons_eq_some hrest
  cases Option.some.inj hend
  exact ⟨b, hs⟩

theorem Reach.run_eq {initial s : σ} {history : List (α × β)} (reach : Reach step initial history s) :
    run step initial (history.map Prod.fst) = some (s, history) := by
  induction reach with
  | start => rfl
  | next _ hs ih => simpa using run_snoc ih hs

/-- The invariant rule: what holds initially and survives each step holds in
every reached state. -/
theorem Reach.invariant {initial s : σ} {history : List (α × β)} {I : σ → Prop}
    (reach : Reach step initial history s) (base : I initial)
    (keep : ∀ s a t b, I s → step s a = some (t, b) → I t) : I s := by
  induction reach with
  | start => exact base
  | next _ hs ih => exact keep _ _ _ _ ih hs

theorem Reach.invariant_along {initial s : σ} {history : List (α × β)} {I : σ → Prop}
    (reach : Reach step initial history s) (base : I initial)
    (keep : ∀ before s a t b, Reach step initial before s → I s → step s a = some (t, b) → I t) :
    I s := by
  induction reach with
  | start => exact base
  | next reach hs ih => exact keep _ _ _ _ _ reach ih hs

/-- The same within a given list of calls, for a property of the state and of the
history behind it. -/
theorem Reach.invariant_within {initial s : σ} {history : List (α × β)} {calls : List α}
    {I : List (α × β) → σ → Prop} (reach : Reach step initial history s)
    (hpre : history.map Prod.fst <+: calls) (base : I [] initial)
    (keep : ∀ before s a t b, Reach step initial before s → before.map Prod.fst ++ [a] <+: calls →
      I before s → step s a = some (t, b) → I (before ++ [(a, b)]) t) : I history s := by
  induction reach with
  | start => exact base
  | @next before s a b t reach hs ih =>
    have hnext : before.map Prod.fst ++ [a] <+: calls := by simpa using hpre
    exact keep before s a t b reach hnext (ih ((List.prefix_append _ _).trans hnext)) hs

/-- When a step condition decides exactly whether one step keeps a property,
a whole run keeps the property in every state reached if and only if each of
its steps meets the condition. -/
theorem holds_along_iff {initial : σ} {I P : σ → Prop} {C : σ → α → Prop}
    (base : I initial) (keep : ∀ s a t b, I s → step s a = some (t, b) → I t)
    (holds : P initial)
    (exactly : ∀ s a, I s → P s → ((∀ t b, step s a = some (t, b) → P t) ↔ C s a))
    (calls : List α) :
    (∀ history s, Reach step initial history s → history.map Prod.fst <+: calls → P s) ↔
      ∀ history s a, Reach step initial history s → history.map Prod.fst ++ [a] <+: calls → C s a := by
  constructor
  · intro hp history s a reach hpre
    have hI := reach.invariant base keep
    have hP := hp history s reach ((List.prefix_append _ _).trans hpre)
    refine (exactly s a hI hP).mp fun t b hs => ?_
    exact hp _ t (.next reach hs) (by simpa using hpre)
  · intro hc history s reach hpre
    refine reach.invariant_within (I := fun _ => P) hpre holds ?_
    intro before s a t b reach hnext hP hs
    have hC := hc before s a reach hnext
    exact (exactly s a (reach.invariant base keep) hP).mpr hC t b hs

/-- A list of calls can be run if and only if every call has a result in the state
that the calls before it lead to. -/
theorem run_isSome_iff {initial : σ} {calls : List α} :
    (run step initial calls).isSome ↔ ∀ history s a, Reach step initial history s →
      history.map Prod.fst ++ [a] <+: calls → (step s a).isSome := by
  constructor
  · intro h history s a reach hpre
    obtain ⟨rest, rfl⟩ := hpre
    obtain ⟨⟨last, all⟩, hrun⟩ := Option.isSome_iff_exists.mp h
    rw [List.append_assoc] at hrun
    obtain ⟨mid, before, after, hmid, hrest, _⟩ := run_append_eq_some hrun
    cases hmid.symm.trans reach.run_eq
    obtain ⟨t, b, later, hs, _, _⟩ := run_cons_eq_some hrest
    rw [hs]
    rfl
  · intro h
    induction calls using List.reverseRecOn with
    | nil => rfl
    | append_singleton calls a ih =>
      have hearlier := ih fun history s a reach hpre =>
        h history s a reach (hpre.trans (List.prefix_append _ _))
      obtain ⟨⟨s, history⟩, hrun⟩ := Option.isSome_iff_exists.mp hearlier
      have hlast := h history s a (run_reach hrun) (by rw [run_calls hrun])
      obtain ⟨⟨t, b⟩, hs⟩ := Option.isSome_iff_exists.mp hlast
      rw [run_snoc hrun hs]
      rfl

/-- When a step condition decides exactly whether one step has a result that keeps
a property, a list of calls can be run, with the property in every state reached,
if and only if each of its steps meets the condition. -/
theorem completes_along_iff {initial : σ} {I P : σ → Prop} {C : σ → α → Prop}
    (base : I initial) (keep : ∀ s a t b, I s → step s a = some (t, b) → I t)
    (holds : P initial)
    (exactly : ∀ s a, I s → P s → ((∃ t b, step s a = some (t, b) ∧ P t) ↔ C s a))
    (calls : List α) :
    ((run step initial calls).isSome ∧
        ∀ history s, Reach step initial history s → history.map Prod.fst <+: calls → P s) ↔
      ∀ history s a, Reach step initial history s → history.map Prod.fst ++ [a] <+: calls → C s a := by
  rw [run_isSome_iff]
  constructor
  · rintro ⟨hsome, hp⟩ history s a reach hpre
    obtain ⟨⟨t, b⟩, hs⟩ := Option.isSome_iff_exists.mp (hsome history s a reach hpre)
    have hP := hp history s reach ((List.prefix_append _ _).trans hpre)
    have ht := hp _ t (.next reach hs) (by simpa using hpre)
    exact (exactly s a (reach.invariant base keep) hP).mp ⟨t, b, hs, ht⟩
  · intro hc
    have hp : ∀ history s, Reach step initial history s → history.map Prod.fst <+: calls → P s := by
      intro history s reach hpre
      refine reach.invariant_within (I := fun _ => P) hpre holds ?_
      intro before s a t b reach hnext hP hs
      obtain ⟨t', b', hs', ht'⟩ :=
        (exactly s a (reach.invariant base keep) hP).mpr (hc before s a reach hnext)
      cases hs.symm.trans hs'
      exact ht'
    refine ⟨fun history s a reach hpre => ?_, hp⟩
    have hP := hp history s reach ((List.prefix_append _ _).trans hpre)
    obtain ⟨t, b, hs, _⟩ := (exactly s a (reach.invariant base keep) hP).mpr (hc history s a reach hpre)
    rw [hs]
    rfl

/-- Every state reached has `Q` if and only if every one meets the condition `C`,
where under an invariant `P` that `C` keeps, `C` gives `Q` and follows from `Q` of
a state and of those behind its steps. -/
theorem holds_iff {initial : σ} {P Q C : σ → Prop} (base : P initial)
    (keep : ∀ s a t b, P s → C s → step s a = some (t, b) → P t)
    (gives : ∀ s, P s → C s → Q s)
    (follows : ∀ s, P s → Q s → (∀ a t b, step s a = some (t, b) → Q t) → C s) :
    (∀ history s, Reach step initial history s → Q s) ↔
      ∀ history s, Reach step initial history s → C s := by
  constructor
  · intro hq history s reach
    have hc : ∀ history s, Reach step initial history s → P s → C s := fun history s reach hp =>
      follows s hp (hq history s reach) fun a t b hs => hq _ t (.next reach hs)
    have hp := reach.invariant_along base fun _ s a t b reach hp =>
      keep s a t b hp (hc _ s reach hp)
    exact hc history s reach hp
  · intro hc history s reach
    have hp := reach.invariant_along base fun _ s a t b reach hp => keep s a t b hp (hc _ s reach)
    exact gives s hp (hc history s reach)

variable (step) in
def each (C : σ → α → Prop) [∀ s a, Decidable (C s a)] : σ → List α → Bool
  | _, [] => true
  | s, a :: rest =>
    decide (C s a) &&
      match step s a with
      | none => true
      | some (t, _) => each C t rest

theorem holds_of_each {C : σ → α → Prop} [∀ s a, Decidable (C s a)] {initial : σ} {calls : List α}
    (h : each step C initial calls = true) :
    ∀ history s a, Reach step initial history s → history.map Prod.fst ++ [a] <+: calls → C s a := by
  intro history s a reach hpre
  have hrun := reach.run_eq
  clear reach
  induction history generalizing initial calls with
  | nil =>
    cases Option.some.inj hrun
    obtain ⟨rest, rfl⟩ := hpre
    simp only [List.map_nil, List.nil_append, List.singleton_append, each, Bool.and_eq_true,
      decide_eq_true_eq] at h
    exact h.1
  | cons e history ih =>
    obtain ⟨rest, rfl⟩ := hpre
    obtain ⟨t, b, later, hs, hr, he⟩ := run_cons_eq_some hrun
    rw [← (List.cons.inj he).2] at hr
    simp only [List.map_cons, List.cons_append, each, Bool.and_eq_true, hs] at h
    exact ih h.2 (List.prefix_append _ _) hr

variable (step) in
def always (P : σ → Prop) [DecidablePred P] : σ → List α → Bool
  | s, [] => decide (P s)
  | s, a :: rest =>
    decide (P s) &&
      match step s a with
      | none => true
      | some (t, _) => always P t rest

theorem holds_of_always {P : σ → Prop} [DecidablePred P] {initial : σ} {calls : List α}
    (h : always step P initial calls = true) :
    ∀ history s, Reach step initial history s → history.map Prod.fst <+: calls → P s := by
  intro history s reach hpre
  have hrun := reach.run_eq
  clear reach
  induction history generalizing initial calls with
  | nil =>
    cases Option.some.inj hrun
    cases calls with
    | nil => simpa [always] using h
    | cons a rest =>
      simp only [always, Bool.and_eq_true, decide_eq_true_eq] at h
      exact h.1
  | cons e history ih =>
    obtain ⟨rest, rfl⟩ := hpre
    obtain ⟨t, b, later, hs, hr, he⟩ := run_cons_eq_some hrun
    rw [← (List.cons.inj he).2] at hr
    simp only [List.map_cons, List.cons_append, always, Bool.and_eq_true, hs] at h
    exact ih h.2 (List.prefix_append _ _) hr

/-- Of a run without inputs it is enough to look at the steps up to its end. -/
theorem holds_of_halted {step : σ → Unit → Option (σ × β)} {P : σ → Prop} [DecidablePred P]
    {initial : σ} (n : Nat) (h : always step P initial (List.replicate n ()) = true)
    (hend : (run step initial (List.replicate n ())).isNone = true) :
    ∀ history s, Reach step initial history s → P s := by
  intro history s reach
  have hcalls : history.map Prod.fst = List.replicate history.length () :=
    List.eq_replicate_iff.mpr ⟨List.length_map _, fun _ _ => rfl⟩
  have hrun := reach.run_eq
  rw [hcalls] at hrun
  refine holds_of_always h history s reach ?_
  rw [hcalls]
  by_cases hle : history.length ≤ n
  · rw [← Nat.add_sub_cancel' hle, List.replicate_add]
    exact List.prefix_append _ _
  · rw [← Nat.add_sub_cancel' (Nat.le_of_not_le hle), List.replicate_add] at hrun
    obtain ⟨_, _, _, hfirst, _, _⟩ := run_append_eq_some hrun
    rw [hfirst] at hend
    cases hend

/-- Where every step lowers a measure, under an invariant, a run is no longer than
the measure allows. -/
theorem run_length_le {I : σ → Prop} (load : σ → Nat)
    (keep : ∀ s a t b, I s → step s a = some (t, b) → I t ∧ load t < load s) {s last : σ}
    {calls : List α} {history : List (α × β)} (hi : I s)
    (h : run step s calls = some (last, history)) :
    I last ∧ calls.length + load last ≤ load s := by
  induction calls generalizing s history with
  | nil =>
    cases Option.some.inj h
    exact ⟨hi, by rw [List.length_nil, Nat.zero_add]⟩
  | cons a rest ih =>
    obtain ⟨t, b, later, hs, hr, _⟩ := run_cons_eq_some h
    obtain ⟨ht, hless⟩ := keep s a t b hi hs
    obtain ⟨hlast, hle⟩ := ih ht hr
    refine ⟨hlast, ?_⟩
    rw [List.length_cons]
    omega

/-- Then some run comes to a state without a further step. -/
theorem exists_run_to_end {I : σ → Prop} (load : σ → Nat)
    (keep : ∀ s a t b, I s → step s a = some (t, b) → I t ∧ load t < load s) {s : σ} (hi : I s) :
    ∃ calls last history, run step s calls = some (last, history) ∧ ∀ a, step last a = none := by
  induction hn : load s using Nat.strong_induction_on generalizing s with
  | h n ih =>
    by_cases hend : ∀ a, step s a = none
    · exact ⟨[], s, [], rfl, hend⟩
    · obtain ⟨a, ha⟩ := not_forall.mp hend
      obtain ⟨⟨t, b⟩, hs⟩ := Option.ne_none_iff_exists'.mp ha
      obtain ⟨ht, hless⟩ := keep s a t b hi hs
      obtain ⟨calls, last, history, hrun, hlast⟩ := ih (load t) (by omega) ht rfl
      exact ⟨a :: calls, last, (a, b) :: history, run_cons hs hrun, hlast⟩

/-- The measure of a list of parts, where one part is changed. -/
theorem sum_map_set {ν : Type} (load : ν → Nat) {parts : List ν} {i : Nat} {c : ν}
    (hc : parts[i]? = some c) (d : ν) :
    ((parts.set i d).map load).sum + load c = (parts.map load).sum + load d := by
  induction parts generalizing i with
  | nil => cases hc
  | cons first rest ih =>
    cases i with
    | zero =>
      cases Option.some.inj hc
      simp only [List.set_cons_zero, List.map_cons, List.sum_cons]
      omega
    | succ i =>
      have hrest := ih (i := i) (by simpa using hc)
      simp only [List.set_cons_succ, List.map_cons, List.sum_cons]
      omega

theorem reach_of_check (step : σ → α → Option (σ × β)) (initial : σ) (calls : List α)
    (P : σ → Prop) [DecidablePred P]
    (h : ((run step initial calls).map fun r => decide (P r.1)) = some true) :
    ∃ history s, Reach step initial history s ∧ history.map Prod.fst = calls ∧ P s := by
  obtain ⟨⟨s, history⟩, hrun, hp⟩ := Option.map_eq_some_iff.mp h
  exact ⟨history, s, run_reach hrun, run_calls hrun, by simpa using hp⟩

end

end PartialRun
