import Mathlib.Data.List.Induction

namespace Scan

variable {σ β ε : Type}

/-- How a scan of some input ends: it returns after consuming a number of
symbols, or it throws at the symbol with that index. -/
inductive Result (σ ε : Type)
  | returned (state : σ) (consumed : Nat)
  | threw (state : σ) (error : ε) (pos : Nat)
deriving DecidableEq, Repr

/-- The state left behind, also by a scan that throws. -/
def Result.state : Result σ ε → σ
  | .returned s _ => s
  | .threw s _ _ => s

/-- Two scans that end in the same way, in states of this relation. -/
inductive Result.Alike (R : σ → σ → Prop) : Result σ ε → Result σ ε → Prop
  | returned {s t : σ} (h : R s t) (n : Nat) : Alike R (.returned s n) (.returned t n)
  | threw {s t : σ} (h : R s t) (e : ε) (n : Nat) : Alike R (.threw s e n) (.threw t e n)

inductive StepAlike (R : σ → σ → Prop) : Except ε σ → Except ε σ → Prop
  | ok {s t : σ} (h : R s t) : StepAlike R (.ok s) (.ok t)
  | error (e : ε) : StepAlike R (.error e) (.error e)

def Result.later (n : Nat) : Result σ ε → Result σ ε
  | .returned s k => .returned s (n + k)
  | .threw s e k => .threw s e (n + k)

@[simp] theorem Result.later_returned (n k : Nat) (s : σ) :
    (Result.returned s k : Result σ ε).later n = .returned s (n + k) := rfl

@[simp] theorem Result.later_threw (n k : Nat) (s : σ) (e : ε) :
    (Result.threw s e k).later n = .threw s e (n + k) := rfl

@[simp] theorem Result.later_zero (r : Result σ ε) : r.later 0 = r := by
  cases r <;> simp

theorem Result.later_later (m n : Nat) (r : Result σ ε) : (r.later n).later m = r.later (m + n) := by
  cases r <;> simp [Nat.add_assoc]

theorem Result.returned_of_later {n k : Nat} {r : Result σ ε} {s : σ}
    (h : r.later n = .returned s (n + k)) : r = .returned s k := by
  cases r with
  | threw t e i => simp at h
  | returned t i =>
    simp only [later_returned, returned.injEq, Nat.add_left_cancel_iff] at h
    rw [h.1, h.2]

section

variable (complete : σ → Bool) (step : σ → β → Except ε σ)

/-- Consume symbols until the input ends, the state is complete, or a step
fails, which leaves the state as it was. -/
def scan : σ → List β → Result σ ε
  | s, [] => .returned s 0
  | s, c :: rest =>
    if complete s then .returned s 0
    else
      match step s c with
      | .error e => .threw s e 0
      | .ok t => (scan t rest).later 1

/-- The characters that a scan reads inside a word: from a state of this kind to
another one of it. -/
def word (kind : σ → Bool) : σ → List β → List β
  | _, [] => []
  | s, c :: rest =>
    if complete s then []
    else
      match step s c with
      | .error _ => []
      | .ok t => if kind s && kind t then c :: word kind t rest else word kind t rest

/-- Successive scans of several inputs, up to the first that completes or
throws. -/
def feed : σ → List (List β) → Result σ ε
  | s, [] => .returned s 0
  | s, chunk :: chunks =>
    match scan complete step s chunk with
    | .threw t e k => .threw t e k
    | .returned t k => if complete t then .returned t k else (feed t chunks).later k

/-- These symbols are consumed from one state to the other, whatever follows. -/
def Eats (s : σ) (xs : List β) (t : σ) : Prop :=
  ∀ rest, scan complete step s (xs ++ rest) = (scan complete step t rest).later xs.length

end

variable {complete : σ → Bool} {step : σ → β → Except ε σ}

theorem scan_of_complete {s : σ} (h : complete s = true) (xs : List β) :
    scan complete step s xs = .returned s 0 := by
  cases xs with
  | nil => rfl
  | cons c rest => simp [scan, h]

theorem scan_cons {s t : σ} {c : β} (hs : complete s = false) (ht : step s c = .ok t)
    (rest : List β) : scan complete step s (c :: rest) = (scan complete step t rest).later 1 := by
  simp [scan, hs, ht]

theorem scan_append (s : σ) (xs ys : List β) :
    scan complete step s (xs ++ ys) =
      match scan complete step s xs with
      | .threw t e k => .threw t e k
      | .returned t k =>
        if complete t then .returned t k else (scan complete step t ys).later k := by
  induction xs generalizing s with
  | nil =>
    cases hc : complete s with
    | true => simp [scan, hc, scan_of_complete hc]
    | false => simp [scan, hc]
  | cons c xs ih =>
    cases hc : complete s with
    | true => simp [scan, hc]
    | false =>
      cases ht : step s c with
      | error e => simp [scan, hc, ht]
      | ok t =>
        rw [List.cons_append, scan_cons hc ht, scan_cons hc ht, ih]
        cases scan complete step t xs with
        | threw u e k => rfl
        | returned u k =>
          cases hu : complete u with
          | true => simp [hu]
          | false => simp [hu, Result.later_later]

/-- Cutting the input does not matter. -/
theorem feed_eq_scan (s : σ) (chunks : List (List β)) :
    feed complete step s chunks = scan complete step s chunks.flatten := by
  induction chunks generalizing s with
  | nil => rfl
  | cons chunk chunks ih =>
    rw [List.flatten_cons, scan_append]
    simp only [feed, ih]

theorem scan_cons_cases {s t : σ} {c : β} {xs : List β} {n : Nat}
    (h : scan complete step s (c :: xs) = .returned t n) :
    (complete s = true ∧ t = s ∧ n = 0) ∨
      ∃ u k, complete s = false ∧ step s c = .ok u ∧ scan complete step u xs = .returned t k ∧
        n = 1 + k := by
  cases hs : complete s with
  | true =>
    rw [scan_of_complete hs] at h
    cases h
    exact Or.inl ⟨rfl, rfl, rfl⟩
  | false =>
    cases hstep : step s c with
    | error e => simp [scan, hs, hstep] at h
    | ok u =>
      rw [scan_cons hs hstep] at h
      cases hr : scan complete step u xs with
      | threw v e k => simp [hr] at h
      | returned v k =>
        rw [hr, Result.later_returned] at h
        cases h
        exact Or.inr ⟨u, k, rfl, rfl, hr, rfl⟩

theorem scan_cons_returned {s t : σ} {c : β} {xs : List β} {n : Nat} (hs : complete s = false)
    (h : scan complete step s (c :: xs) = .returned t n) :
    ∃ u k, scan complete step u xs = .returned t k ∧ n = 1 + k := by
  rcases scan_cons_cases h with ⟨hc, _, _⟩ | ⟨u, k, _, _, hr, hn⟩
  · rw [hs] at hc
    cases hc
  · exact ⟨u, k, hr, hn⟩

/-- What every step keeps holds of the state in which a scan returns. -/
theorem invariant_of_returned {I : σ → Prop} (keep : ∀ s c t, I s → step s c = .ok t → I t)
    {s t : σ} {xs : List β} {n : Nat} (hs : I s) (h : scan complete step s xs = .returned t n) :
    I t := by
  induction xs generalizing s n with
  | nil =>
    cases h
    exact hs
  | cons c xs ih =>
    rcases scan_cons_cases h with ⟨_, rfl, _⟩ | ⟨u, k, _, hstep, hr, _⟩
    · exact hs
    · exact ih (keep _ _ _ hs hstep) hr

/-- A quantity that the characters of the word build up, and that no other
character changes: in the state in which a scan returns it is what they make
of it. -/
theorem get_of_returned {γ : Type} {kind : σ → Bool} {get : σ → γ} {f : γ → β → γ} {ok : β → Prop}
    (inside : ∀ s c t, step s c = .ok t → kind s = true → kind t = true → ok c →
      get t = f (get s) c)
    (outside : ∀ s c t, step s c = .ok t → ¬ (kind s = true ∧ kind t = true) → get t = get s)
    {s t : σ} {xs : List β} {n : Nat} (h : scan complete step s xs = .returned t n)
    (hok : ∀ c ∈ word complete step kind s xs, ok c) :
    get t = (word complete step kind s xs).foldl f (get s) := by
  induction xs generalizing s n with
  | nil =>
    cases h
    rfl
  | cons c xs ih =>
    rcases scan_cons_cases h with ⟨hs, rfl, _⟩ | ⟨u, k, hs, hstep, hr, _⟩
    · simp [word, hs]
    · by_cases hin : kind s = true ∧ kind u = true
      · have hword : word complete step kind s (c :: xs) = c :: word complete step kind u xs := by
          simp [word, hs, hstep, hin.1, hin.2]
        rw [hword] at hok ⊢
        rw [List.foldl_cons, ← inside s c u hstep hin.1 hin.2 (hok c List.mem_cons_self)]
        exact ih hr fun d hd => hok d (List.mem_cons_of_mem c hd)
      · have hword : word complete step kind s (c :: xs) = word complete step kind u xs := by
          simp [word, hs, hstep, hin]
        rw [hword] at hok ⊢
        rw [← outside s c u hstep hin]
        exact ih hr hok

theorem consumed_eq_length {s t : σ} {xs : List β} {n : Nat}
    (h : scan complete step s xs = .returned t n) (ht : complete t = false) : n = xs.length := by
  induction xs generalizing s n with
  | nil =>
    cases h
    rfl
  | cons c xs ih =>
    cases hs : complete s with
    | true =>
      rw [scan_of_complete hs] at h
      cases h
      rw [hs] at ht
      cases ht
    | false =>
      obtain ⟨u, k, hr, hn⟩ := scan_cons_returned hs h
      rw [hn, ih hr, List.length_cons, Nat.add_comm]

theorem consumed_le_length {s t : σ} {xs : List β} {n : Nat}
    (h : scan complete step s xs = .returned t n) : n ≤ xs.length := by
  induction xs generalizing s n with
  | nil =>
    cases h
    exact Nat.le_refl 0
  | cons c xs ih =>
    cases hs : complete s with
    | true =>
      rw [scan_of_complete hs] at h
      cases h
      exact Nat.zero_le _
    | false =>
      obtain ⟨u, k, hr, hn⟩ := scan_cons_returned hs h
      have hk := ih hr
      rw [List.length_cons]
      omega

theorem threw_lt_length {s t : σ} {xs : List β} {e : ε} {n : Nat}
    (h : scan complete step s xs = .threw t e n) : n < xs.length := by
  induction xs generalizing s n with
  | nil => simp [scan] at h
  | cons c xs ih =>
    cases hs : complete s with
    | true => simp [scan, hs] at h
    | false =>
      cases hstep : step s c with
      | error e' =>
        simp only [scan, hs, hstep, Bool.false_eq_true, if_false, Result.threw.injEq] at h
        rw [← h.2.2]
        exact Nat.succ_pos _
      | ok u =>
        rw [scan_cons hs hstep] at h
        cases hr : scan complete step u xs with
        | returned v k => simp [hr] at h
        | threw v e' k =>
          simp only [hr, Result.later_threw, Result.threw.injEq] at h
          obtain ⟨rfl, rfl, rfl⟩ := h
          have hk := ih hr
          rw [List.length_cons]
          omega

theorem consumed_pos {s t : σ} {xs : List β} {n : Nat} (hx : xs ≠ []) (hs : complete s = false)
    (h : scan complete step s xs = .returned t n) : 0 < n := by
  obtain ⟨c, xs, rfl⟩ := List.exists_cons_of_ne_nil hx
  obtain ⟨u, k, _, hn⟩ := scan_cons_returned hs h
  omega

theorem scan_resume {s t : σ} {xs : List β} (h : scan complete step s xs = .returned t xs.length)
    (ht : complete t = false) (ys : List β) :
    scan complete step s (xs ++ ys) = (scan complete step t ys).later xs.length := by
  rw [scan_append, h]
  simp [ht]

theorem scan_prefix {s u : σ} {xs ys : List β}
    (h : scan complete step s (xs ++ ys) = .returned u (xs ++ ys).length) (hy : ys ≠ []) :
    ∃ t, scan complete step s xs = .returned t xs.length ∧ complete t = false := by
  rw [scan_append] at h
  cases hx : scan complete step s xs with
  | threw t e k => simp [hx] at h
  | returned t k =>
    rw [hx] at h
    cases ht : complete t with
    | true =>
      simp only [ht, if_true, Result.returned.injEq] at h
      have hle := consumed_le_length hx
      have hpos := List.length_pos_iff.mpr hy
      have hlen := h.2
      rw [List.length_append] at hlen
      omega
    | false => exact ⟨t, by rw [consumed_eq_length hx ht], ht⟩

theorem scan_take {s t : σ} {xs : List β} {n : Nat}
    (h : scan complete step s xs = .returned t n) :
    scan complete step s (xs.take n) = .returned t n := by
  induction xs generalizing s n with
  | nil => simpa using h
  | cons c xs ih =>
    rcases scan_cons_cases h with ⟨_, rfl, rfl⟩ | ⟨u, k, hs, hstep, hr, rfl⟩
    · rfl
    · rw [Nat.add_comm, List.take_succ_cons, scan_cons hs hstep, ih hr, Result.later_returned,
        Nat.add_comm]

theorem scan_snoc {s t : σ} {xs : List β} {c : β}
    (h : scan complete step s (xs ++ [c]) = .returned t (xs ++ [c]).length) :
    ∃ u, scan complete step s xs = .returned u xs.length ∧ complete u = false ∧
      step u c = .ok t := by
  obtain ⟨u, hu, hc⟩ := scan_prefix h (by simp)
  rw [scan_resume hu hc, List.length_append] at h
  rcases scan_cons_cases (Result.returned_of_later h) with ⟨hc', _, _⟩ | ⟨v, k, _, hstep, hr, _⟩
  · rw [hc] at hc'
    cases hc'
  · cases hr
    exact ⟨u, hu, hc, hstep⟩

/-- A relation between the state and the input consumed, kept by every step of
the scan, holds where the scan returns. -/
theorem trace_of_returned {I : List β → σ → Prop} {s t : σ} {xs : List β} {n : Nat} (hs : I [] s)
    (keep : ∀ pre u c v, I pre u → pre ++ [c] <+: xs →
      scan complete step s pre = .returned u pre.length → complete u = false →
      step u c = .ok v → I (pre ++ [c]) v)
    (h : scan complete step s xs = .returned t n) : I (xs.take n) t := by
  have hlen : (xs.take n).length = n := List.length_take_of_le (consumed_le_length h)
  have htrace : ∀ ys, ys <+: xs → ∀ t, scan complete step s ys = .returned t ys.length → I ys t := by
    intro ys
    induction ys using List.reverseRecOn with
    | nil =>
      intro _ t ht
      cases ht
      exact hs
    | append_singleton ys c ih =>
      intro hpre t ht
      obtain ⟨u, hu, hc, hstep⟩ := scan_snoc ht
      exact keep ys u c t (ih ((List.prefix_append _ _).trans hpre) u hu) hpre hu hc hstep
  exact htrace _ (List.take_prefix n xs) t (by rw [hlen]; exact scan_take h)

theorem Result.Alike.later {R : σ → σ → Prop} {r r' : Result σ ε} (h : r.Alike R r') (n : Nat) :
    (r.later n).Alike R (r'.later n) := by
  cases h with
  | returned h k => exact .returned h (n + k)
  | threw h e k => exact .threw h e (n + k)

/-- Two runs in lockstep: what every pair of steps keeps makes the scans of the
same input end alike. -/
theorem scan_alike {R : σ → σ → Prop} (hcomplete : ∀ s t, R s t → complete s = complete t)
    (hstep : ∀ s t c, R s t → StepAlike R (step s c) (step t c)) {s t : σ} (h : R s t)
    (xs : List β) : (scan complete step s xs).Alike R (scan complete step t xs) := by
  induction xs generalizing s t with
  | nil => exact .returned h 0
  | cons c xs ih =>
    cases hs : complete s with
    | true =>
      have ht : complete t = true := by rw [← hcomplete s t h, hs]
      rw [scan_of_complete hs, scan_of_complete ht]
      exact .returned h 0
    | false =>
      have ht : complete t = false := by rw [← hcomplete s t h, hs]
      have hsame := hstep s t c h
      cases hsc : step s c with
      | error e =>
        cases htc : step t c with
        | ok t' =>
          rw [hsc, htc] at hsame
          cases hsame
        | error e' =>
          rw [hsc, htc] at hsame
          cases hsame
          simp only [scan, hs, ht, hsc, htc, Bool.false_eq_true, if_false]
          exact .threw h e 0
      | ok s' =>
        cases htc : step t c with
        | error e' =>
          rw [hsc, htc] at hsame
          cases hsame
        | ok t' =>
          rw [hsc, htc] at hsame
          cases hsame with
          | ok hnext =>
            rw [scan_cons hs hsc, scan_cons ht htc]
            exact (ih hnext).later 1

theorem Eats.nil (s : σ) : Eats complete step s [] s := fun _ => by simp

theorem Eats.trans {s t u : σ} {xs ys : List β} (h : Eats complete step s xs t)
    (h' : Eats complete step t ys u) : Eats complete step s (xs ++ ys) u := by
  intro rest
  rw [List.append_assoc, h, h', Result.later_later, List.length_append]

theorem Eats.single {s t : σ} {c : β} (hs : complete s = false) (ht : step s c = .ok t) :
    Eats complete step s [c] t := fun rest => scan_cons hs ht rest

/-- A loop of the scanner: the states it passes depend on the part of the word
read so far, and none of them is complete. -/
theorem Eats.loop {f : List β → σ} (hf : ∀ pre, complete (f pre) = false) (xs : List β)
    (hstep : ∀ pre c, pre ++ [c] <+: xs → step (f pre) c = .ok (f (pre ++ [c]))) :
    Eats complete step (f []) xs (f xs) := by
  induction xs using List.reverseRecOn with
  | nil => exact .nil _
  | append_singleton xs c ih =>
    have hlast : Eats complete step (f xs) [c] (f (xs ++ [c])) :=
      .single (hf xs) (hstep xs c (List.prefix_refl _))
    exact (ih fun pre d hpre => hstep pre d (hpre.trans (List.prefix_append _ _))).trans hlast

theorem Eats.scan_complete {s t : σ} {xs : List β} (h : Eats complete step s xs t)
    (ht : complete t = true) (rest : List β) :
    scan complete step s (xs ++ rest) = .returned t xs.length := by
  rw [h, scan_of_complete ht, Result.later_returned, Nat.add_zero]

end Scan
