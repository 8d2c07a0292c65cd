import Afina.Lib.PartialRun
import Afina.Lib.Tagged
import Mathlib.Logic.Function.Basic

namespace Guarded

open Tagged

/-- Code that runs while a lock is held, one statement at a time: where a call
starts, what a statement does to the object and where it leads, and what a call
that is through returns. A statement without a result is undefined. -/
structure Code (σ ρ α β : Type) where
  entry : α → ρ
  stmt : σ → ρ → Option (σ × ρ)
  result : ρ → Option β

/-- The end of a call that has the object to itself: the object it leaves and
what it returns, or nothing when it comes to an undefined statement. -/
inductive Code.Ends {σ ρ α β : Type} (c : Code σ ρ α β) : σ → ρ → Option (σ × β) → Prop
  | returns {s : σ} {p : ρ} {b : β} : c.result p = some b → Ends c s p (some (s, b))
  | undefined {s : σ} {p : ρ} : c.result p = none → c.stmt s p = none → Ends c s p none
  | next {s t : σ} {p q : ρ} {o : Option (σ × β)} : c.result p = none →
      c.stmt s p = some (t, q) → Ends c t q o → Ends c s p o

/-- Where a thread is: outside of all calls, before the lock of a call, between
two statements under the lock, or behind the lock with its result. -/
inductive Place (ρ α β : Type)
  | idle
  | waiting (a : α)
  | inside (a : α) (p : ρ)
  | leaving (b : β)

structure Threads (ι σ ρ α β : Type) where
  object : σ
  holder : Option ι
  place : ι → Place ρ α β

inductive Turn (ι α : Type)
  | call (i : ι) (a : α)
  | lock (i : ι)
  | stmt (i : ι)
  | unlock (i : ι)
  | ret (i : ι)
deriving DecidableEq

def Turn.thread {ι α : Type} : Turn ι α → ι
  | .call i _ => i
  | .lock i => i
  | .stmt i => i
  | .unlock i => i
  | .ret i => i

/-- What is seen of a turn: a call that let the lock go, or one that returned. -/
inductive Mark (α β : Type)
  | silent
  | unlocked (a : α) (b : β)
  | returned (b : β)
deriving DecidableEq

theorem Code.Ends.tail {σ ρ α β : Type} {c : Code σ ρ α β} {s t : σ} {p q : ρ}
    {o : Option (σ × β)} (h : c.Ends s p o) (hnone : c.result p = none)
    (hstmt : c.stmt s p = some (t, q)) : c.Ends t q o := by
  cases h with
  | returns hb => simp [hnone] at hb
  | undefined _ hu => simp [hstmt] at hu
  | next _ hs rest =>
    cases hs.symm.trans hstmt
    exact rest

theorem Code.Ends.of_result {σ ρ α β : Type} {c : Code σ ρ α β} {s : σ} {p : ρ} {b : β}
    {o : Option (σ × β)} (h : c.Ends s p o) (hb : c.result p = some b) : o = some (s, b) := by
  cases h with
  | returns hb' =>
    cases hb'.symm.trans hb
    rfl
  | undefined hnone _ => simp [hb] at hnone
  | next hnone _ _ => simp [hb] at hnone

namespace Threads

section

variable {ι σ ρ α β : Type} [DecidableEq ι]

def initial (s : σ) : Threads ι σ ρ α β := ⟨s, none, fun _ => .idle⟩

def moveTo (w : Threads ι σ ρ α β) (i : ι) (p : Place ρ α β) : Threads ι σ ρ α β :=
  { w with place := Function.update w.place i p }

/-- One turn of one thread. Only the thread that holds the lock runs statements,
and a thread takes the lock only while nobody holds it. -/
def step (c : Code σ ρ α β) (w : Threads ι σ ρ α β) :
    Turn ι α → Option (Threads ι σ ρ α β × Mark α β)
  | .call i a =>
    match w.place i with
    | .idle => some (w.moveTo i (.waiting a), .silent)
    | _ => none
  | .lock i =>
    match w.place i, w.holder with
    | .waiting a, none => some ({ w.moveTo i (.inside a (c.entry a)) with holder := some i }, .silent)
    | _, _ => none
  | .stmt i =>
    match w.place i with
    | .inside a p =>
      if c.result p = none then do
        let (s, q) ← c.stmt w.object p
        pure ({ w.moveTo i (.inside a q) with object := s }, .silent)
      else none
    | _ => none
  | .unlock i =>
    match w.place i with
    | .inside a p => do
      let b ← c.result p
      pure ({ w.moveTo i (.leaving b) with holder := none }, .unlocked a b)
    | _ => none
  | .ret i =>
    match w.place i with
    | .leaving b => some (w.moveTo i .idle, .returned b)
    | _ => none

/-- All that a turn can be. -/
inductive Moves (c : Code σ ρ α β) (w : Threads ι σ ρ α β) :
    Turn ι α → Mark α β → Threads ι σ ρ α β → Prop
  | called {i : ι} {a : α} (idle : w.place i = .idle) :
      Moves c w (.call i a) .silent (w.moveTo i (.waiting a))
  | locked {i : ι} {a : α} (waiting : w.place i = .waiting a) (free : w.holder = none) :
      Moves c w (.lock i) .silent { w.moveTo i (.inside a (c.entry a)) with holder := some i }
  | ran {i : ι} {a : α} {p q : ρ} {s : σ} (inside : w.place i = .inside a p)
      (going : c.result p = none) (stmt : c.stmt w.object p = some (s, q)) :
      Moves c w (.stmt i) .silent { w.moveTo i (.inside a q) with object := s }
  | unlocked {i : ι} {a : α} {p : ρ} {b : β} (inside : w.place i = .inside a p)
      (through : c.result p = some b) :
      Moves c w (.unlock i) (.unlocked a b) { w.moveTo i (.leaving b) with holder := none }
  | left {i : ι} {b : β} (leaving : w.place i = .leaving b) :
      Moves c w (.ret i) (.returned b) (w.moveTo i .idle)

theorem moves_of_step {c : Code σ ρ α β} {w w' : Threads ι σ ρ α β} {e : Turn ι α} {m : Mark α β}
    (h : w.step c e = some (w', m)) : Moves c w e m w' := by
  cases e with
  | call i a =>
    simp only [step] at h
    split at h
    next hp => cases h; exact .called hp
    next => cases h
  | lock i =>
    simp only [step] at h
    split at h
    next a hp hfree => cases h; exact .locked hp hfree
    next => cases h
  | stmt i =>
    simp only [step] at h
    split at h
    next a p hp =>
      split at h
      next hgoing =>
        obtain ⟨⟨s, q⟩, hstmt, h⟩ := Option.bind_eq_some_iff.mp h
        cases h
        exact .ran hp hgoing hstmt
      next => cases h
    next => cases h
  | unlock i =>
    simp only [step] at h
    split at h
    next a p hp =>
      obtain ⟨b, hb, h⟩ := Option.bind_eq_some_iff.mp h
      cases h
      exact .unlocked hp hb
    next => cases h
  | ret i =>
    simp only [step] at h
    split at h
    next b hp => cases h; exact .left hp
    next => cases h

/-- The calls that let the lock go, in that order, with their threads. -/
def finished (history : List (Turn ι α × Mark α β)) : List (ι × α × β) :=
  history.filterMap fun
    | (.unlock i, .unlocked a b) => some (i, a, b)
    | _ => none

def finishedBy (history : List (Turn ι α × Mark α β)) (i : ι) : List (α × β) :=
  part (finished history) i

def calledBy (history : List (Turn ι α × Mark α β)) (i : ι) : List α :=
  history.filterMap fun
    | (.call j a, _) => if j = i then some a else none
    | _ => none

def returnedBy (history : List (Turn ι α × Mark α β)) (i : ι) : List β :=
  history.filterMap fun
    | (.ret j, .returned b) => if j = i then some b else none
    | _ => none

/-- What a thread has called and been given back, against the calls of it that
let the lock go. -/
def Accounts (done : List (α × β)) (called : List α) (returned : List β) : Place ρ α β → Prop
  | .idle => called = done.map Prod.fst ∧ returned = done.map Prod.snd
  | .waiting a => called = done.map Prod.fst ++ [a] ∧ returned = done.map Prod.snd
  | .inside a _ => called = done.map Prod.fst ++ [a] ∧ returned = done.map Prod.snd
  | .leaving b => called = done.map Prod.fst ∧ returned ++ [b] = done.map Prod.snd

/-- The object as the holder of the lock leaves it to the atomic call it is in. -/
def Held (c : Code σ ρ α β) (atomic : σ → α → Option (σ × β)) (w : Threads ι σ ρ α β) (s : σ) : Prop :=
  match w.holder with
  | none => w.object = s
  | some i => ∃ a p, w.place i = .inside a p ∧ c.Ends w.object p (atomic s a)

structure Tracks (c : Code σ ρ α β) (atomic : σ → α → Option (σ × β)) (s₀ : σ)
    (history : List (Turn ι α × Mark α β)) (w : Threads ι σ ρ α β) : Prop where
  alone : ∀ i a p, w.place i = .inside a p → w.holder = some i
  legal : ∃ s, PartialRun.Reach atomic s₀ ((finished history).map Prod.snd) s ∧ Held c atomic w s
  accounts : ∀ i, Accounts (finishedBy history i) (calledBy history i) (returnedBy history i)
    (w.place i)

variable {c : Code σ ρ α β} {atomic : σ → α → Option (σ × β)} {s₀ : σ}
  {history : List (Turn ι α × Mark α β)} {w w' : Threads ι σ ρ α β} {e : Turn ι α} {m : Mark α β}

theorem initial_tracks (s₀ : σ) :
    Tracks c atomic s₀ [] (initial s₀ : Threads ι σ ρ α β) := by
  refine ⟨?_, ⟨s₀, .start, rfl⟩, fun i => ⟨rfl, rfl⟩⟩
  intro i a p hp
  cases hp

/-- A thread without the lock does not change what the holder has. -/
theorem Held.moveTo {s : σ} (h : Held c atomic w s) {i : ι} (hi : ∀ a p, w.place i ≠ .inside a p)
    (q : Place ρ α β) : Held c atomic (w.moveTo i q) s := by
  unfold Held at h ⊢
  simp only [Threads.moveTo]
  cases hh : w.holder with
  | none => simpa [hh] using h
  | some j =>
    rw [hh] at h
    obtain ⟨a, p, hp, hends⟩ := h
    have hne : j ≠ i := fun he => hi a p (he ▸ hp)
    exact ⟨a, p, by rw [Function.update_of_ne hne, hp], hends⟩

theorem Tracks.held (h : Tracks c atomic s₀ history w) {i : ι} {a : α} {p : ρ}
    (hp : w.place i = .inside a p) :
    ∃ s, PartialRun.Reach atomic s₀ ((finished history).map Prod.snd) s ∧
      c.Ends w.object p (atomic s a) := by
  obtain ⟨s, reach, hheld⟩ := h.legal
  simp only [Held, h.alone i a p hp] at hheld
  obtain ⟨a', p', hp', hends⟩ := hheld
  cases hp'.symm.trans hp
  exact ⟨s, reach, hends⟩

/-- While one thread is inside, no other is. -/
theorem Tracks.others_outside (h : Tracks c atomic s₀ history w) {i j : ι} {a : α} {p : ρ}
    (hp : w.place i = .inside a p) (hne : j ≠ i) (a' : α) (p' : ρ) : w.place j ≠ .inside a' p' := by
  intro hj
  have := (h.alone j a' p' hj).symm.trans (h.alone i a p hp)
  exact hne (Option.some.inj this)

theorem moveTo_of_ne {i j : ι} (hne : j ≠ i) (p : Place ρ α β) :
    (w.moveTo i p).place j = w.place j :=
  Function.update_of_ne hne _ _

theorem inside_moveTo (h : ∀ j a p, w.place j = .inside a p → w.holder = some j) {i : ι}
    {q : Place ρ α β} (hq : ∀ a p, q ≠ .inside a p) (j : ι) (a : α) (p : ρ)
    (hj : (w.moveTo i q).place j = .inside a p) : (w.moveTo i q).holder = some j := by
  by_cases he : j = i
  · subst he
    simp only [moveTo, Function.update_self] at hj
    exact absurd hj (hq a p)
  · rw [moveTo_of_ne he] at hj
    exact h j a p hj

theorem finishedBy_append (first second : List (Turn ι α × Mark α β)) (i : ι) :
    finishedBy (first ++ second) i = finishedBy first i ++ finishedBy second i := by
  simp [finishedBy, part, finished]

theorem calledBy_append (first second : List (Turn ι α × Mark α β)) (i : ι) :
    calledBy (first ++ second) i = calledBy first i ++ calledBy second i := by
  simp [calledBy]

theorem returnedBy_append (first second : List (Turn ι α × Mark α β)) (i : ι) :
    returnedBy (first ++ second) i = returnedBy first i ++ returnedBy second i := by
  simp [returnedBy]

theorem accounts_step (hm : Moves c w e m w') {j : ι}
    (h : Accounts (finishedBy history j) (calledBy history j) (returnedBy history j) (w.place j)) :
    Accounts (finishedBy (history ++ [(e, m)]) j) (calledBy (history ++ [(e, m)]) j)
      (returnedBy (history ++ [(e, m)]) j) (w'.place j) := by
  rw [finishedBy_append, calledBy_append, returnedBy_append]
  by_cases hj : j = e.thread
  · cases hm with
    | called idle =>
      rw [hj, Turn.thread, idle] at h
      simpa [hj, Turn.thread, Accounts, finishedBy, part, finished, calledBy, returnedBy, moveTo] using h
    | locked waiting free =>
      rw [hj, Turn.thread, waiting] at h
      simpa [hj, Turn.thread, Accounts, finishedBy, part, finished, calledBy, returnedBy, moveTo] using h
    | ran inside going stmt =>
      rw [hj, Turn.thread, inside] at h
      simpa [hj, Turn.thread, Accounts, finishedBy, part, finished, calledBy, returnedBy, moveTo] using h
    | unlocked inside through =>
      rw [hj, Turn.thread, inside] at h
      simpa [hj, Turn.thread, Accounts, finishedBy, part, finished, calledBy, returnedBy, moveTo] using h
    | left leaving =>
      rw [hj, Turn.thread, leaving] at h
      simpa [hj, Turn.thread, Accounts, finishedBy, part, finished, calledBy, returnedBy, moveTo] using h
  · have hj' := Ne.symm hj
    cases hm <;> simp only [Turn.thread] at hj hj' <;>
      simpa [finishedBy, part, finished, calledBy, returnedBy, moveTo, hj, hj'] using h

theorem Tracks.step (himp : ∀ s a, c.Ends s (c.entry a) (atomic s a))
    (h : Tracks c atomic s₀ history w) (hm : Moves c w e m w') :
    Tracks c atomic s₀ (history ++ [(e, m)]) w' := by
  have haccounts := fun j => accounts_step hm (h.accounts j)
  cases hm with
  | called idle =>
    obtain ⟨s, reach, hheld⟩ := h.legal
    refine ⟨?_, ⟨s, by simpa [finished] using reach, hheld.moveTo (by simp [idle]) _⟩, haccounts⟩
    exact inside_moveTo h.alone (by simp)
  | left leaving =>
    obtain ⟨s, reach, hheld⟩ := h.legal
    refine ⟨?_, ⟨s, by simpa [finished] using reach, hheld.moveTo (by simp [leaving]) _⟩, haccounts⟩
    exact inside_moveTo h.alone (by simp)
  | @locked i a waiting free =>
    obtain ⟨s, reach, hheld⟩ := h.legal
    simp only [Held, free] at hheld
    refine ⟨?_, ⟨s, by simpa [finished] using reach, a, c.entry a, by simp [moveTo], ?_⟩, haccounts⟩
    · intro j b p hj
      by_cases he : j = i
      · rw [he]
      · rw [moveTo_of_ne he] at hj
        simp [h.alone j b p hj] at free
    · rw [← hheld]
      exact himp _ _
  | @ran i a p q s' inside going stmt =>
    obtain ⟨s, reach, hends⟩ := h.held inside
    have hholder := h.alone i a p inside
    refine ⟨?_, ⟨s, by simpa [finished] using reach, ?_⟩, haccounts⟩
    · intro j b p' hj
      by_cases he : j = i
      · rw [he]
        exact hholder
      · rw [moveTo_of_ne he] at hj
        exact h.alone j b p' hj
    · simp only [Held, moveTo, hholder]
      exact ⟨a, q, Function.update_self .., hends.tail going stmt⟩
  | @unlocked i a p b inside through =>
    obtain ⟨s, reach, hends⟩ := h.held inside
    refine ⟨?_, ⟨w.object, ?_, rfl⟩, haccounts⟩
    · intro j a' p' hj
      by_cases he : j = i
      · simp [moveTo, he] at hj
      · rw [moveTo_of_ne he] at hj
        exact absurd hj (h.others_outside inside he a' p')
    · simpa [finished] using PartialRun.Reach.next reach (hends.of_result through)

/-- Code that ends alone as an atomic call does is used by any number of threads as
if their calls were made one by one, in the order in which they let the lock go. -/
theorem Tracks.of_reach (himp : ∀ s a, c.Ends s (c.entry a) (atomic s a))
    (reach : PartialRun.Reach (Threads.step c) (initial s₀) history w) :
    Tracks c atomic s₀ history w := by
  induction reach with
  | start => exact initial_tracks s₀
  | next _ hs ih => exact ih.step himp (moves_of_step hs)

theorem Accounts.between {done : List (α × β)} {called : List α} {returned : List β}
    {p : Place ρ α β} (h : Accounts done called returned p) :
    returned <+: done.map Prod.snd ∧ done.map Prod.fst <+: called := by
  cases p with
  | idle => exact ⟨by rw [h.2], by rw [h.1]⟩
  | waiting a => exact ⟨by rw [h.2], by rw [h.1]; exact List.prefix_append _ _⟩
  | inside a p => exact ⟨by rw [h.2], by rw [h.1]; exact List.prefix_append _ _⟩
  | leaving b => exact ⟨by rw [← h.2]; exact List.prefix_append _ _, by rw [h.1]⟩

/-- The order consists of calls that were made, with all that have returned, thread by
thread in their order and with their results. At every earlier moment of the history
the same holds of some first part of it, so a call that returned before another was
made comes before it. -/
structure Linearizes (history : List (Turn ι α × Mark α β)) (order : List (ι × α × β)) : Prop where
  calls : ∀ i, returnedBy history i <+: (part order i).map Prod.snd ∧
    (part order i).map Prod.fst <+: calledBy history i
  times : ∀ before, before <+: history → ∃ done, done <+: order ∧ ∀ i,
    returnedBy before i <+: (part done i).map Prod.snd ∧
      (part done i).map Prod.fst <+: calledBy before i

theorem Tracks.finished_calls (h : Tracks c atomic s₀ history w) (i : ι) :
    returnedBy history i <+: (part (finished history) i).map Prod.snd ∧
      (part (finished history) i).map Prod.fst <+: calledBy history i :=
  (h.accounts i).between

theorem linearizes_finished (himp : ∀ s a, c.Ends s (c.entry a) (atomic s a))
    (reach : PartialRun.Reach (step c) (initial s₀) history w) :
    Linearizes history (finished history) where
  calls := (Tracks.of_reach himp reach).finished_calls
  times := by
    induction reach with
    | start =>
      intro before hpre
      rw [List.prefix_nil.mp hpre]
      exact ⟨[], List.prefix_refl _, fun i => ⟨List.prefix_refl _, List.prefix_refl _⟩⟩
    | @next history w e m w' reach hs ih =>
      intro before hpre
      rcases List.prefix_concat_iff.mp hpre with rfl | hearlier
      · exact ⟨_, List.prefix_refl _, (Tracks.of_reach himp (.next reach hs)).finished_calls⟩
      · obtain ⟨done, hdone, hthreads⟩ := ih before hearlier
        exact ⟨done, hdone.trans ((List.prefix_append _ _).filterMap _), hthreads⟩

/-- The turns of a call from where it is under the lock to its end. -/
def rest (n : Nat) (i : ι) : List (Turn ι α) := List.replicate n (.stmt i) ++ [.unlock i]

theorem run_rest {p : ρ} {a : α} {s t : σ} {b : β} {o : Option (σ × β)} {i : ι}
    (hends : c.Ends s p o) (ho : o = some (t, b)) (hobject : w.object = s)
    (hp : w.place i = .inside a p) :
    ∃ n w' marks, PartialRun.run (step c) w (rest n i) = some (w', marks) ∧
      w' = ⟨t, none, Function.update w.place i (.leaving b)⟩ := by
  induction hends generalizing w with
  | @returns s p b' hb =>
    cases ho
    refine ⟨0, { w.moveTo i (.leaving b) with holder := none }, [(.unlock i, .unlocked a b)], ?_, ?_⟩
    · simp [rest, PartialRun.run, step, hp, hb]
    · rw [← hobject]
      rfl
  | undefined => cases ho
  | @next s u p q o hnone hstmt hends ih =>
    have hs : w.step c (.stmt i) = some ({ w.moveTo i (.inside a q) with object := u }, .silent) := by
      simp [step, hp, hnone, hobject, hstmt]
    obtain ⟨n, w', marks, hrun, hw'⟩ := ih (w := { w.moveTo i (.inside a q) with object := u }) ho rfl
      (by simp [moveTo])
    refine ⟨n + 1, w', _, PartialRun.run_cons hs hrun, ?_⟩
    rw [hw']
    simp [moveTo]

/-- A call that comes to an undefined statement never lets the lock go. -/
theorem run_rest_undefined {p : ρ} {a : α} {s : σ} {o : Option (σ × β)} {i : ι}
    (hends : c.Ends s p o) (ho : o = none) (hobject : w.object = s)
    (hp : w.place i = .inside a p) (n : Nat) : PartialRun.run (step c) w (rest n i) = none := by
  induction hends generalizing w n with
  | returns => cases ho
  | undefined hnone hstmt =>
    cases n with
    | zero => simp [rest, PartialRun.run, step, hp, hnone]
    | succ n =>
      simp [rest, List.replicate_succ, PartialRun.run, step, hp, hnone, hobject, hstmt]
  | @next s u p q o hnone hstmt hends ih =>
    cases n with
    | zero => simp [rest, PartialRun.run, step, hp, hnone]
    | succ n =>
      have hs : w.step c (.stmt i) =
          some ({ w.moveTo i (.inside a q) with object := u }, .silent) := by
        simp [step, hp, hnone, hobject, hstmt]
      have hrest := ih (w := { w.moveTo i (.inside a q) with object := u }) ho rfl
        (by simp [moveTo]) n
      have hcons : rest (n + 1) i = Turn.stmt i :: (rest n i : List (Turn ι α)) := rfl
      simp [hcons, PartialRun.run, hs, hrest]

end

end Threads

end Guarded
