import Afina.StoreStatements
import Afina.StoreShape

namespace Afina

open Guarded

/-- Threads that use one storage: each method takes `_lock` first and lets it go
at its end, and between any two of its statements other threads may run. -/
abbrev StoreThreads (ι : Type) := Threads ι Store Position Op Reply

abbrev StoreThreads.Reach {ι : Type} [DecidableEq ι] (maxSize : Int32) :
    List (Turn ι Op × Mark Op Reply) → StoreThreads ι → Prop :=
  PartialRun.Reach (Threads.step storeCode) (Threads.initial (Store.fresh maxSize))

/-- What is reached by calls on the store is reached by them on the cache. -/
theorem Store.Reach.cache {m : Int32} (hm : 0 ≤ m) {history : List (Op × Reply)} {s : Store}
    (reach : Store.Reach m history s) :
    PartialRun.Reach Cache.step (Cache.fresh m) history s.cache := by
  induction reach with
  | start => exact .start
  | next earlier hs ih => exact .next ih ((Store.Reach.valid hm earlier).cache_step hs)

/-- However the threads interleave, statement by statement: the finished calls, in the
order in which they let the lock go, agree with what each thread called and was given,
and with the times of its calls and returns, and in that order the abstract cache gives
the same results. While nobody is inside, the storage is the one these calls lead to. -/
theorem storage_linearizable {ι : Type} [DecidableEq ι] {m : Int32} (hm : 0 ≤ m)
    {history : List (Turn ι Op × Mark Op Reply)} {w : StoreThreads ι}
    (reach : StoreThreads.Reach m history w) :
    Threads.Linearizes history (Threads.finished history) ∧
      ∃ c, PartialRun.Reach Cache.step (Cache.fresh m)
          ((Threads.finished history).map Prod.snd) c ∧
        (w.holder = none → w.object.cache = c ∧ w.object.Valid) := by
  obtain ⟨s, hs, hheld⟩ := (Threads.Tracks.of_reach storeCode_ends reach).legal
  refine ⟨Threads.linearizes_finished storeCode_ends reach, s.cache, Store.Reach.cache hm hs,
    fun hfree => ?_⟩
  simp only [Threads.Held, hfree] at hheld
  rw [hheld]
  exact ⟨rfl, Store.Reach.valid hm hs⟩

def overlappingTurns : List (Turn (Fin 2) Op) :=
  [.call 0 (.put (text "k") (text "v")), .lock 0] ++ List.replicate 4 (.stmt 0) ++
    [.call 1 (.get (text "k"))] ++ Threads.rest 3 0 ++ [.lock 1] ++ Threads.rest 5 1 ++
    [.ret 1, .ret 0]

/-- Two threads of which the second calls while the first is inside. -/
theorem storage_linearizable_overlap :
    ∃ history w, StoreThreads.Reach (ι := Fin 2) 100 history w ∧
      history.map Prod.fst = overlappingTurns ∧
      Threads.returnedBy history 1 = [.value (some (text "v"))] ∧
      Threads.Linearizes history (Threads.finished history) ∧
      ∃ c, PartialRun.Reach Cache.step (Cache.fresh 100)
          ((Threads.finished history).map Prod.snd) c ∧
        (w.holder = none → w.object.cache = c ∧ w.object.Valid) := by
  have hcheck : ((PartialRun.run (Threads.step storeCode) (Threads.initial (Store.fresh 100))
      overlappingTurns).map fun r =>
        decide (Threads.returnedBy r.2 1 = [Reply.value (some (text "v"))])) = some true := by decide
  obtain ⟨⟨w, history⟩, hrun, hreturned⟩ := Option.map_eq_some_iff.mp hcheck
  have reach := PartialRun.run_reach hrun
  exact ⟨history, w, reach, PartialRun.run_calls hrun, of_decide_eq_true hreturned,
    storage_linearizable (by decide) reach⟩

/-- At most one thread is inside a method, and list and map agree while none is. -/
structure StoreThreads.Guards {ι : Type} (w : StoreThreads ι) : Prop where
  one : ∀ i j a b p q, w.place i = .inside a p → w.place j = .inside b q → i = j
  free : w.holder = none → w.object.Linked ∧ ∀ i a p, w.place i ≠ .inside a p

/-- The lock guards the storage in every state of the threads, and the thread
inside comes to the end of its method if and only if its call is defined on the
storage that the finished calls have left. A `Delete` that hits is not defined. -/
theorem storage_guarded {ι : Type} [DecidableEq ι] {m : Int32}
    {history : List (Turn ι Op × Mark Op Reply)} {w : StoreThreads ι}
    (reach : StoreThreads.Reach m history w) :
    w.Guards ∧ ∀ i op p, w.place i = .inside op p →
      ∃ s, Store.Reach m ((Threads.finished history).map Prod.snd) s ∧
        ((∃ n, (PartialRun.run (Threads.step storeCode) w (Threads.rest n i)).isSome) ↔
          (s.step op).isSome) := by
  have htracks := Threads.Tracks.of_reach storeCode_ends reach
  refine ⟨⟨?_, ?_⟩, ?_⟩
  · intro i j a b p q hi hj
    exact Option.some.inj ((htracks.alone i a p hi).symm.trans (htracks.alone j b q hj))
  · intro hfree
    obtain ⟨s, hs, hheld⟩ := htracks.legal
    simp only [Threads.Held, hfree] at hheld
    refine ⟨hheld ▸ Store.Reach.linked hs, fun i a p hi => ?_⟩
    rw [htracks.alone i a p hi] at hfree
    cases hfree
  · intro i op p hi
    obtain ⟨s, hs, hends⟩ := htracks.held hi
    refine ⟨s, hs, ?_⟩
    cases hstep : s.step op with
    | none =>
      rw [hstep] at hends
      simp [Threads.run_rest_undefined hends rfl rfl hi]
    | some r =>
      rw [hstep] at hends
      obtain ⟨n, w', marks, hrun, _⟩ := Threads.run_rest (t := r.1) (b := r.2) hends rfl rfl hi
      simp only [Option.isSome_some, iff_true]
      exact ⟨n, by rw [hrun]; rfl⟩

/-- In the middle of an insertion the node is in the list and not in the map. -/
theorem storage_guarded_inside :
    ∃ history w, StoreThreads.Reach (ι := Fin 2) 100 history w ∧
      w.object.lru.map Node.key = [text "k"] ∧ w.object.cacheMap (text "k") = none ∧
      w.Guards ∧ ∀ i op p, w.place i = .inside op p →
        ∃ s, Store.Reach 100 ((Threads.finished history).map Prod.snd) s ∧
          ((∃ n, (PartialRun.run (Threads.step storeCode) w (Threads.rest n i)).isSome) ↔
            (s.step op).isSome) := by
  obtain ⟨history, w, reach, _, hnode, hmap⟩ := PartialRun.reach_of_check
    (Threads.step storeCode) (Threads.initial (Store.fresh 100) : StoreThreads (Fin 2))
    (overlappingTurns.take 7 ++ [.stmt 0])
    (fun w => w.object.lru.map Node.key = [text "k"] ∧ w.object.cacheMap (text "k") = none)
    (by decide)
  exact ⟨history, w, reach, hnode, hmap, storage_guarded reach⟩

end Afina
