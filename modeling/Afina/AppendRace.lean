import Afina.AppendTrail
import Afina.Commands
import Mathlib.Data.Fin.VecNotation

namespace Afina

inductive AppendPhase
  | start
  | read (value : Bytes)
  | done (out : Bytes)
deriving DecidableEq, Repr

/-- Clients running `Append::Execute` on one key of a shared storage. -/
structure AppendSystem (n : Nat) where
  store : Store
  phase : Fin n → AppendPhase

namespace AppendSystem

variable {n : Nat}

def initial (s : Store) : AppendSystem n := ⟨s, fun _ => .start⟩

/-- The next storage call of one client, atomic under the storage mutex: its
`Get`, or its `Put` of what it had read with its suffix. A client that has
replied makes no more calls. One whose calls are not interrupted by others does
what `appendExecute` does: `run_alone`. -/
def step (key : Bytes) (suffix : Fin n → Bytes) (sys : AppendSystem n) (i : Fin n) :
    Option (AppendSystem n × Unit) :=
  match sys.phase i with
  | .start => do
    let (s, found) ← sys.store.get key
    match found with
    | none => pure (⟨s, Function.update sys.phase i (.done notStored)⟩, ())
    | some value => pure (⟨s, Function.update sys.phase i (.read value)⟩, ())
  | .read value => do
    let (s, _) ← sys.store.put key (value ++ suffix i)
    pure (⟨s, Function.update sys.phase i (.done stored)⟩, ())
  | .done _ => none

/-- The next call of a client is not a `Put` that is refused for its size. -/
def Admitted (key : Bytes) (suffix : Fin n → Bytes) (sys : AppendSystem n) (i : Fin n) : Prop :=
  match sys.phase i with
  | .read value => sys.store.cache.Admits key (value ++ suffix i)
  | _ => True

instance (key : Bytes) (suffix : Fin n → Bytes) (sys : AppendSystem n) (i : Fin n) :
    Decidable (sys.Admitted key suffix i) := by
  unfold Admitted
  split <;> infer_instance

/-- A client that is not interrupted does what `Append::Execute` does. -/
theorem run_alone {key : Bytes} {suffix : Fin n → Bytes} {sys : AppendSystem n} {i : Fin n}
    {t : Store} {out : Bytes} {c : InsertCommand} (hc : c.key = key) (hi : sys.phase i = .start)
    (he : appendExecute c sys.store (suffix i) = some (t, out)) :
    ∃ calls history phase, PartialRun.run (step key suffix) sys calls = some (⟨t, phase⟩, history) ∧
      (∀ j ∈ calls, j = i) ∧ phase = Function.update sys.phase i (.done out) := by
  subst hc
  obtain ⟨⟨s, found⟩, hg, he⟩ := Option.bind_eq_some_iff.mp he
  cases found with
  | none =>
    cases Option.some.inj he
    refine ⟨[i], [(i, ())], _, ?_, by simp, rfl⟩
    exact PartialRun.run_cons (by simp [step, hi, hg]) rfl
  | some value =>
    obtain ⟨⟨s', ok⟩, hp, he⟩ := Option.bind_eq_some_iff.mp he
    cases Option.some.inj he
    refine ⟨[i, i], [(i, ()), (i, ())], _, ?_, by simp, rfl⟩
    refine PartialRun.run_cons (t := ⟨s, Function.update sys.phase i (.read value)⟩)
      (by simp [step, hi, hg]) (PartialRun.run_cons ?_ rfl)
    simp [step, hp]

end AppendSystem

def appended {n : Nat} (suffix : Fin n → Bytes) (v : Bytes) (writers : List (Fin n)) : Bytes :=
  v ++ (writers.map suffix).flatten

theorem appended_snoc {n : Nat} (suffix : Fin n → Bytes) (v : Bytes) (writers : List (Fin n))
    (i : Fin n) : appended suffix v (writers ++ [i]) = appended suffix v writers ++ suffix i := by
  simp [appended]

structure Follows {n : Nat} (key : Bytes) (suffix : Fin n → Bytes) (v : Bytes) (t : Trail n)
    (sys : AppendSystem n) : Prop where
  valid : sys.store.Valid
  value : sys.store.cache.contents key = some (appended suffix v t.written)
  start : ∀ i, sys.phase i = .start → t.read i = none
  read : ∀ i x, sys.phase i = .read x → ∃ seen, t.read i = some seen ∧ x = appended suffix v seen
  nodup : t.written.Nodup ∧ ∀ i ∈ t.written, ∃ out, sys.phase i = .done out
  seen : ∀ i l, t.read i = some l → l.Nodup ∧ ∀ j ∈ l, ∃ out, sys.phase j = .done out

/-- A client that has replied stays so, whoever moves. -/
theorem replied_update {n : Nat} {phase : Fin n → AppendPhase} {i : Fin n}
    (hi : ∀ out, phase i ≠ .done out) (p : AppendPhase) {j : Fin n}
    (hj : ∃ out, phase j = .done out) : ∃ out, Function.update phase i p j = .done out := by
  obtain ⟨out, hj⟩ := hj
  have hne : j ≠ i := fun he => hi out (he ▸ hj)
  exact ⟨out, by rw [Function.update_of_ne hne, hj]⟩

section

variable {n : Nat} {key : Bytes} {suffix : Fin n → Bytes} {v : Bytes} {t : Trail n}
  {sys sys' : AppendSystem n} {i : Fin n} {r : Unit}

theorem Follows.step_get (h : Follows key suffix v t sys) (hp : sys.phase i = .start)
    (hs : AppendSystem.step key suffix sys i = some (sys', r)) :
    Follows key suffix v (t.step i) sys' := by
  have hread := h.start i hp
  obtain ⟨g, hg, hgv, hgc, _⟩ := h.valid.get_spec key
  rw [h.value] at hg
  simp only [AppendSystem.step, hp, hg, Option.bind_eq_bind, Option.bind_some, Option.pure_def,
    Option.some.injEq, Prod.mk.injEq] at hs
  obtain ⟨rfl, _⟩ := hs
  have hdone : ∀ j, (∃ out, sys.phase j = .done out) → ∃ out,
      Function.update sys.phase i (.read (appended suffix v t.written)) j = .done out :=
    fun j => replied_update (by simp [hp]) _
  simp only [Trail.step, hread]
  refine ⟨hgv, by rw [hgc]; exact h.value, ?_, ?_,
    ⟨h.nodup.1, fun j hj => hdone j (h.nodup.2 j hj)⟩, ?_⟩
  · intro j hj
    by_cases he : j = i
    · simp [he] at hj
    · dsimp only at hj ⊢
      rw [Function.update_of_ne he] at hj ⊢
      exact h.start j hj
  · intro j x hj
    by_cases he : j = i
    · subst he
      simp only [Function.update_self, AppendPhase.read.injEq] at hj
      exact ⟨t.written, by simp, hj.symm⟩
    · dsimp only at hj ⊢
      rw [Function.update_of_ne he] at hj ⊢
      exact h.read j x hj
  · intro j l hj
    by_cases he : j = i
    · subst he
      simp only [Function.update_self, Option.some.injEq] at hj
      subst hj
      exact ⟨h.nodup.1, fun k hk => hdone k (h.nodup.2 k hk)⟩
    · dsimp only at hj
      rw [Function.update_of_ne he] at hj
      exact ⟨(h.seen j l hj).1, fun k hk => hdone k ((h.seen j l hj).2 k hk)⟩

theorem Follows.step_put (h : Follows key suffix v t sys) {x : Bytes} (hp : sys.phase i = .read x)
    (admitted : sys.store.cache.Admits key (x ++ suffix i))
    (hs : AppendSystem.step key suffix sys i = some (sys', r)) :
    Follows key suffix v (t.step i) sys' := by
  obtain ⟨seen, hread, hx⟩ := h.read i x hp
  obtain ⟨hseen, hwriters⟩ := h.seen i seen hread
  simp only [AppendSystem.step, hp] at hs
  obtain ⟨⟨s', ok⟩, hput, hs⟩ := Option.bind_eq_some_iff.mp hs
  cases Option.some.inj hs
  obtain ⟨hvalid, ⟨_, _, hc⟩ | ⟨hnot, _⟩⟩ := h.valid.put_spec hput
  · have hdone : ∀ j, (∃ out, sys.phase j = .done out) →
        ∃ out, Function.update sys.phase i (.done stored) j = .done out :=
      fun j => replied_update (by simp [hp]) _
    have hnew : i ∉ seen := by
      intro hmem
      obtain ⟨out, hout⟩ := hwriters i hmem
      simp [hp] at hout
    simp only [Trail.step, hread]
    refine ⟨hvalid, by rw [hc, hx, appended_snoc], ?_, ?_, ⟨?_, ?_⟩, ?_⟩
    · intro j hj
      by_cases he : j = i
      · simp [he] at hj
      · dsimp only at hj
        rw [Function.update_of_ne he] at hj
        exact h.start j hj
    · intro j y hj
      by_cases he : j = i
      · simp [he] at hj
      · dsimp only at hj
        rw [Function.update_of_ne he] at hj
        exact h.read j y hj
    · rw [List.nodup_append]
      refine ⟨hseen, by simp, fun a ha b hb hab => ?_⟩
      rw [List.mem_singleton] at hb
      exact hnew (by rw [← hb, ← hab]; exact ha)
    · intro j hj
      rcases List.mem_append.mp hj with hj | hj
      · exact hdone j (hwriters j hj)
      · rw [List.mem_singleton.mp hj]
        exact ⟨stored, by simp⟩
    · intro j l hj
      exact ⟨(h.seen j l hj).1, fun k hk => hdone k ((h.seen j l hj).2 k hk)⟩
  · exact absurd admitted hnot

theorem Follows.step (h : Follows key suffix v t sys) (admitted : sys.Admitted key suffix i)
    (hs : AppendSystem.step key suffix sys i = some (sys', r)) :
    Follows key suffix v (t.step i) sys' := by
  cases hp : sys.phase i with
  | start => exact h.step_get hp hs
  | read x =>
    simp only [AppendSystem.Admitted, hp] at admitted
    exact h.step_put hp admitted hs
  | done out => simp [AppendSystem.step, hp] at hs

end

/-- No `Put` of the run is refused for its size. -/
def NoneRefused {n : Nat} (key : Bytes) (suffix : Fin n → Bytes) (s : Store)
    (schedule : List (Fin n)) : Prop :=
  ∀ history sys i,
    PartialRun.Reach (AppendSystem.step key suffix) (AppendSystem.initial s) history sys →
      history.map Prod.fst ++ [i] <+: schedule → sys.Admitted key suffix i

theorem follows_run {n : Nat} {key : Bytes} {suffix : Fin n → Bytes} {v : Bytes} {s : Store}
    (hs : s.Valid) (hv : s.cache.contents key = some v) {schedule : List (Fin n)}
    (hroom : NoneRefused key suffix s schedule) {history : List (Fin n × Unit)}
    {sys : AppendSystem n}
    (reach : PartialRun.Reach (AppendSystem.step key suffix) (AppendSystem.initial s) history sys)
    (hpre : history.map Prod.fst <+: schedule) :
    Follows key suffix v (Trail.of (history.map Prod.fst)) sys := by
  refine reach.invariant_within
    (I := fun history => Follows key suffix v (Trail.of (history.map Prod.fst))) hpre ?_ ?_
  · have hvalue : (AppendSystem.initial s : AppendSystem n).store.cache.contents key =
        some (appended suffix v []) := by simpa [appended, AppendSystem.initial] using hv
    refine ⟨hs, hvalue, fun i _ => rfl, ?_, by simp [Trail.of], ?_⟩
    · intro i x hi
      simp [AppendSystem.initial] at hi
    · intro i l hl
      simp [Trail.of] at hl
  · intro before sys i sys' r reach hnext hfollows hstep
    have hnew := hfollows.step (hroom before sys i reach hnext) hstep
    simpa [Trail.of_snoc] using hnew

theorem follows_end {n : Nat} {key : Bytes} {suffix : Fin n → Bytes} {v : Bytes} {s : Store}
    (hs : s.Valid) (hv : s.cache.contents key = some v) {schedule : List (Fin n)}
    (hroom : NoneRefused key suffix s schedule) {final : AppendSystem n}
    {history : List (Fin n × Unit)}
    (hrun : PartialRun.run (AppendSystem.step key suffix) (AppendSystem.initial s) schedule =
      some (final, history)) : Follows key suffix v (Trail.of schedule) final := by
  have hcalls := PartialRun.run_calls hrun
  have hfollows := follows_run hs hv hroom (PartialRun.run_reach hrun) (by rw [hcalls])
  rwa [hcalls] at hfollows

theorem appended_all_iff {n : Nat} (suffix : Fin n → Bytes) (v : Bytes) {writers : List (Fin n)}
    (hw : writers.Nodup) :
    (∃ order : List (Fin n), order.Perm (List.finRange n) ∧
        appended suffix v writers = appended suffix v order) ↔
      ∀ i, i ∉ writers → suffix i = [] := by
  have hsplit : (List.finRange n).Perm
      (writers ++ (List.finRange n).filter (fun i => i ∉ writers)) := by
    refine (List.perm_ext_iff_of_nodup (List.nodup_finRange n) ?_).mpr fun i => ?_
    · rw [List.nodup_append]
      refine ⟨hw, (List.nodup_finRange n).filter _, fun a ha b hb hab => ?_⟩
      have hb' : b ∉ writers := by simpa using (List.mem_filter.mp hb).2
      exact hb' (hab ▸ ha)
    · by_cases hi : i ∈ writers <;> simp [hi]
  have hflat : ∀ l : List (Fin n), (∀ i ∈ l, suffix i = []) ↔
      ((l.map suffix).flatten.length = 0) := by
    intro l
    rw [List.length_eq_zero_iff, List.flatten_eq_nil_iff]
    simp only [List.mem_map, forall_exists_index, and_imp, forall_apply_eq_imp_iff₂]
  have hmissing : (∀ i, i ∉ writers → suffix i = []) ↔
      ∀ i ∈ (List.finRange n).filter (fun i => i ∉ writers), suffix i = [] := by
    simp
  constructor
  · rintro ⟨order, hperm, heq⟩
    have hlen : (order.map suffix).flatten.length =
        ((writers ++ (List.finRange n).filter (fun i => i ∉ writers)).map suffix).flatten.length :=
      ((hperm.trans hsplit).map suffix).flatten.length_eq
    have heq' := congrArg List.length heq
    simp only [appended, List.length_append, List.map_append, List.flatten_append] at hlen heq'
    rw [hmissing, hflat]
    omega
  · intro h
    refine ⟨_, hsplit.symm, ?_⟩
    have hnil := (hflat _).mp (hmissing.mp h)
    rw [List.length_eq_zero_iff] at hnil
    rw [appended, appended, List.map_append, List.flatten_append, hnil, List.append_nil]

/-- Clients appending to one present key of a shared storage, in any
interleaving of their storage calls in which no write is refused and all reply
"STORED": every suffix is in the final value, once, if and only if each client
with a suffix to lose is in the trail of the last writer. -/
theorem append_kept_iff {m : Int32} (hm : 0 ≤ m) {calls : List (Op × Reply)} {s : Store}
    (reach : Store.Reach m calls s) {key v : Bytes} (hv : s.cache.contents key = some v)
    {n : Nat} (suffix : Fin n → Bytes) {schedule : List (Fin n)} {final : AppendSystem n}
    {history : List (Fin n × Unit)} (hroom : NoneRefused key suffix s schedule)
    (hrun : PartialRun.run (AppendSystem.step key suffix) (AppendSystem.initial s) schedule =
      some (final, history))
    (_replied : ∀ i, final.phase i = .done stored) :
    (∃ order : List (Fin n), order.Perm (List.finRange n) ∧
        final.store.cache.contents key = some (v ++ (order.map suffix).flatten)) ↔
      ∀ i, i ∉ (Trail.of schedule).written → suffix i = [] := by
  have hfollows := follows_end (Store.Reach.valid hm reach) hv hroom hrun
  rw [← appended_all_iff suffix v hfollows.nodup.1, hfollows.value]
  simp only [Option.some.injEq]
  rfl

/-- If every client has something to append, this is the case exactly when they
run one after the other. -/
theorem append_kept_iff_one_by_one {m : Int32} (hm : 0 ≤ m) {calls : List (Op × Reply)} {s : Store}
    (reach : Store.Reach m calls s) {key v : Bytes} (hv : s.cache.contents key = some v)
    {n : Nat} {suffix : Fin n → Bytes} (hsuffix : ∀ i, suffix i ≠ []) {schedule : List (Fin n)}
    (twice : ∀ i, schedule.count i = 2) {final : AppendSystem n} {history : List (Fin n × Unit)}
    (hroom : NoneRefused key suffix s schedule)
    (hrun : PartialRun.run (AppendSystem.step key suffix) (AppendSystem.initial s) schedule =
      some (final, history)) :
    (∃ order : List (Fin n), order.Perm (List.finRange n) ∧
        final.store.cache.contents key = some (appended suffix v order)) ↔
      ∃ order : List (Fin n), order.Perm (List.finRange n) ∧ schedule = Trail.serial order := by
  have hfollows := follows_end (Store.Reach.valid hm reach) hv hroom hrun
  rw [← Trail.all_written_iff twice, hfollows.value]
  simp only [Option.some.injEq]
  rw [appended_all_iff suffix v hfollows.nodup.1]
  constructor
  · intro h i
    by_contra hi
    exact hsuffix i (h i hi)
  · intro h i hi
    exact absurd (h i) hi

def RaceEnds {n : Nat} (key : Bytes) (suffix : Fin n → Bytes) (schedule : List (Fin n))
    (v last : Bytes) (s : Store) : Prop :=
  s.cache.contents key = some v ∧
    PartialRun.each (AppendSystem.step key suffix) (AppendSystem.Admitted key suffix)
      (AppendSystem.initial s) schedule = true ∧
    ((PartialRun.run (AppendSystem.step key suffix) (AppendSystem.initial s) schedule).map fun e =>
      decide ((∀ i, e.1.phase i = .done stored) ∧
        e.1.store.cache.contents key = some last)) = some true

instance {n : Nat} (key : Bytes) (suffix : Fin n → Bytes) (schedule : List (Fin n))
    (v last : Bytes) : DecidablePred (RaceEnds key suffix schedule v last) :=
  fun s => inferInstanceAs (Decidable (s.cache.contents key = some v ∧ _ = true ∧ _ = some true))

theorem RaceEnds.spec {n : Nat} {key : Bytes} {suffix : Fin n → Bytes} {schedule : List (Fin n)}
    {v last : Bytes} {s : Store} (h : RaceEnds key suffix schedule v last s) :
    s.cache.contents key = some v ∧ NoneRefused key suffix s schedule ∧ ∃ final turns,
      PartialRun.run (AppendSystem.step key suffix) (AppendSystem.initial s) schedule =
        some (final, turns) ∧
      (∀ i, final.phase i = .done stored) ∧ final.store.cache.contents key = some last := by
  obtain ⟨hv, hroom, hend⟩ := h
  obtain ⟨⟨final, turns⟩, hrun, hend⟩ := Option.map_eq_some_iff.mp hend
  obtain ⟨hdone, hlast⟩ := of_decide_eq_true hend
  exact ⟨hv, PartialRun.holds_of_each hroom, final, turns, hrun, hdone, hlast⟩

/-- Two clients that both read before either writes: the first suffix is lost. -/
theorem append_lost :
    ∃ (calls : List (Op × Reply)) (s : Store) (final : AppendSystem 2)
        (history : List (Fin 2 × Unit)),
      Store.Reach 100 calls s ∧ s.cache.contents (text "k") = some (text "v") ∧
      NoneRefused (text "k") ![text "1", text "2"] s [0, 1, 0, 1] ∧
      PartialRun.run (AppendSystem.step (text "k") ![text "1", text "2"]) (AppendSystem.initial s)
        [0, 1, 0, 1] = some (final, history) ∧
      (∀ i, final.phase i = .done stored) ∧
      ¬ ∃ order : List (Fin 2), order.Perm (List.finRange 2) ∧
        final.store.cache.contents (text "k") =
          some (text "v" ++ (order.map ![text "1", text "2"]).flatten) := by
  obtain ⟨calls, s, reach, _, hends⟩ := PartialRun.reach_of_check Store.step (Store.fresh 100)
    [.put (text "k") (text "v")]
    (RaceEnds (text "k") ![text "1", text "2"] [0, 1, 0, 1] (text "v") (text "v2")) (by decide)
  obtain ⟨hv, hroom, final, history, hrun, hdone, hlast⟩ := hends.spec
  refine ⟨calls, s, final, history, reach, hv, hroom, hrun, hdone, ?_⟩
  rintro ⟨order, hperm, heq⟩
  rw [hlast, Option.some.injEq] at heq
  have hlen := congrArg List.length heq
  have hall := (hperm.map ![text "1", text "2"]).flatten.length_eq
  rw [List.length_append, hall] at hlen
  exact absurd hlen (by decide)

theorem append_kept_iff_serial :
    ∃ (calls : List (Op × Reply)) (s : Store) (final : AppendSystem 2)
        (history : List (Fin 2 × Unit)),
      Store.Reach 100 calls s ∧ s.cache.contents (text "k") = some (text "v") ∧
      PartialRun.run (AppendSystem.step (text "k") ![text "1", text "2"]) (AppendSystem.initial s)
        [1, 1, 0, 0] = some (final, history) ∧
      ∃ order : List (Fin 2), order.Perm (List.finRange 2) ∧
        final.store.cache.contents (text "k") =
          some (text "v" ++ (order.map ![text "1", text "2"]).flatten) := by
  obtain ⟨calls, s, reach, _, hends⟩ := PartialRun.reach_of_check Store.step (Store.fresh 100)
    [.put (text "k") (text "v")]
    (RaceEnds (text "k") ![text "1", text "2"] [1, 1, 0, 0] (text "v") (text "v21")) (by decide)
  obtain ⟨hv, hroom, final, history, hrun, hdone, _⟩ := hends.spec
  exact ⟨calls, s, final, history, reach, hv, hrun,
    (append_kept_iff (by decide) reach hv _ hroom hrun hdone).mpr (by decide)⟩

end Afina
