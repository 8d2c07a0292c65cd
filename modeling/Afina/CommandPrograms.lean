import Afina.GetReply

namespace Afina

/-- A command as the storage calls it makes one after the other, each of them
with the results of those before. -/
inductive Program
  | done (out : Bytes)
  | call (op : Op) (next : Reply → Program)

namespace Program

/-- The command alone on a storage whose calls do this. -/
def run {σ : Type} (step : σ → Op → Option (σ × Reply)) : Program → σ → Option (σ × Bytes)
  | .done out, s => some (s, out)
  | .call op next, s => do
    let (t, r) ← step s op
    (next r).run step t

def ofAppend (c : InsertCommand) (args : Bytes) : Reply → Program
  | .value (some value) => .call (.put c.key (value ++ args)) fun _ => .done stored
  | _ => .done notStored

def ofReplace (c : InsertCommand) (args : Bytes) : Reply → Program
  | .value (some _) => .call (.set c.key args) fun _ => .done stored
  | _ => .done notStored

/-- The loop of `Get::Execute`, with the output so far. -/
def ofGet : List Bytes → Bytes → Program
  | [], out => .done (out ++ text "END")
  | key :: keys, out => .call (.get key) fun
    | .value (some value) => ofGet keys (out ++ getItem key value)
    | _ => ofGet keys out

end Program

def InsertKind.program (kind : InsertKind) (c : InsertCommand) (args : Bytes) : Program :=
  match kind with
  | .set => .call (.put c.key args) fun _ => .done stored
  | .add => .call (.putIfAbsent c.key args) fun r =>
      .done (if r = .status true then stored else notStored)
  | .append => .call (.get c.key) (.ofAppend c args)
  | .replace => .call (.get c.key) (.ofReplace c args)

def Command.program : Command → Bytes → Program
  | .insert kind c, args => kind.program c args
  | .get keys, _ => .ofGet keys []
  | .stats, _ => .done (text "END")

theorem Program.run_ofGet (keys : List Bytes) (out : Bytes) (s : Store) :
    (Program.ofGet keys out).run Store.step s =
      (getItems keys s).map fun r => (r.1, out ++ r.2 ++ text "END") := by
  induction keys generalizing out s with
  | nil => simp [ofGet, run, getItems]
  | cons key keys ih =>
    cases hget : s.get key with
    | none => simp [ofGet, run, getItems, Store.step, hget]
    | some r =>
      obtain ⟨t, found⟩ := r
      cases found with
      | none =>
        simp only [ofGet, run, Store.step, hget, getItems, Option.map_some, Option.bind_eq_bind,
          Option.bind_some, ih]
        cases getItems keys t <;> simp
      | some value =>
        simp only [ofGet, run, Store.step, hget, getItems, Option.map_some, Option.bind_eq_bind,
          Option.bind_some, ih]
        cases getItems keys t <;> simp

/-- The calls of a command, made without a break, are its `Execute`. -/
theorem Command.program_run (c : Command) (args : Bytes) (s : Store) :
    (c.program args).run Store.step s = c.execute s args := by
  cases c with
  | insert kind data =>
    cases kind with
    | set =>
      simp only [program, InsertKind.program, Program.run, Store.step, execute, InsertKind.execute,
        setExecute]
      cases s.put data.key args <;> rfl
    | add =>
      simp only [program, InsertKind.program, Program.run, Store.step, execute, InsertKind.execute,
        addExecute]
      cases s.putIfAbsent data.key args <;> simp
    | append =>
      simp only [program, InsertKind.program, Program.run, Store.step, execute, InsertKind.execute,
        appendExecute]
      cases hget : s.get data.key with
      | none => rfl
      | some r =>
        obtain ⟨t, _ | value⟩ := r
        · rfl
        · simp only [Option.map_some, Option.bind_eq_bind, Option.bind_some, Program.ofAppend,
            Program.run, Store.step]
          cases t.put data.key (value ++ args) <;> rfl
    | replace =>
      simp only [program, InsertKind.program, Program.run, Store.step, execute, InsertKind.execute,
        replaceExecute]
      cases hget : s.get data.key with
      | none => rfl
      | some r =>
        obtain ⟨t, _ | value⟩ := r
        · rfl
        · simp only [Option.map_some, Option.bind_eq_bind, Option.bind_some, Program.ofReplace,
            Program.run, Store.step]
          cases t.set data.key args <;> rfl
  | get keys =>
    simp only [program, Program.run_ofGet, execute, getExecute]
    cases getItems keys s <;> rfl
  | stats => rfl

/-- `Execute` of a command with its argument. -/
def Store.serve (s : Store) (call : Command × Bytes) : Option (Store × Bytes) :=
  call.1.execute s call.2

/-- The same on the abstract cache. -/
def Cache.serve (c : Cache) (call : Command × Bytes) : Option (Cache × Bytes) :=
  (call.1.program call.2).run Cache.step c

theorem Store.Valid.run_refines {s : Store} (h : s.Valid) (p : Program) :
    (p.run Store.step s).map (fun r => (r.1.cache, r.2)) = p.run Cache.step s.cache ∧
      ∀ t out, p.run Store.step s = some (t, out) → t.Valid := by
  induction p generalizing s with
  | done out => exact ⟨rfl, fun t out' ht => by cases ht; exact h⟩
  | call op next ih =>
    have hstep := h.step_refines op
    cases hs : s.step op with
    | none =>
      rw [hs, Option.map_none] at hstep
      simp [Program.run, hs, ← hstep]
    | some r =>
      rw [hs, Option.map_some] at hstep
      simpa [Program.run, hs, ← hstep] using ih r.2 (h.step hs)

/-- Commands on the store do what they do on the cache. -/
theorem Store.Valid.serve_refines {s : Store} (h : s.Valid) (call : Command × Bytes) :
    (s.serve call).map (fun r => (r.1.cache, r.2)) = s.cache.serve call := by
  rw [Store.serve, ← Command.program_run]
  exact (h.run_refines _).1

theorem Store.Valid.serve {s t : Store} (h : s.Valid) {call : Command × Bytes} {out : Bytes}
    (hs : s.serve call = some (t, out)) : t.Valid := by
  rw [Store.serve, ← Command.program_run] at hs
  exact (h.run_refines _).2 t out hs

theorem Store.Valid.serve_run {s : Store} (h : s.Valid) (calls : List (Command × Bytes)) :
    (PartialRun.run Store.serve s calls).map (fun r => (r.1.cache, r.2)) =
      PartialRun.run Cache.serve s.cache calls := by
  induction calls generalizing s with
  | nil => rfl
  | cons call calls ih =>
    have hserve := h.serve_refines call
    cases hs : s.serve call with
    | none =>
      rw [hs, Option.map_none] at hserve
      simp [PartialRun.run, hs, ← hserve]
    | some r =>
      rw [hs, Option.map_some] at hserve
      simp only [PartialRun.run, hs, ← hserve, Option.bind_eq_bind, Option.bind_some,
        ← ih (h.serve hs)]
      cases PartialRun.run Store.serve r.1 calls <;> rfl

/-- What commands lead to on a new store, they lead to on a new cache, with the
same output. -/
theorem Store.serve_cache {m : Int32} (hm : 0 ≤ m) {history : List ((Command × Bytes) × Bytes)}
    {s : Store} (reach : PartialRun.Reach Store.serve (Store.fresh m) history s) :
    s.Valid ∧ PartialRun.Reach Cache.serve (Cache.fresh m) history s.cache := by
  induction reach with
  | start => exact ⟨Store.fresh_valid hm, .start⟩
  | next _ hs ih =>
    refine ⟨ih.1.serve hs, .next ih.2 ?_⟩
    rw [← ih.1.serve_refines, hs]
    rfl

end Afina
