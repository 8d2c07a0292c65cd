import Afina.Lib.Tagged
import Afina.UvService
import Afina.WorkerClosed

namespace Afina

open Tagged

def Sent.results (l : List Sent) : List Bytes :=
  l.filterMap fun
    | .result output => some output
    | .error _ => none

def Sent.errors (l : List Sent) : List Bytes :=
  l.filterMap fun
    | .result _ => none
    | .error output => some output

theorem Sent.results_append (l l' : List Sent) :
    Sent.results (l ++ l') = Sent.results l ++ Sent.results l' :=
  List.filterMap_append

theorem Sent.errors_append (l l' : List Sent) :
    Sent.errors (l ++ l') = Sent.errors l ++ Sent.errors l' :=
  List.filterMap_append

theorem Sent.results_of_errors (l : List Bytes) : Sent.results (l.map .error) = [] := by
  induction l with
  | nil => rfl
  | cons e l ih => exact ih

theorem Sent.errors_of_errors (l : List Bytes) : Sent.errors (l.map .error) = l := by
  induction l with
  | nil => rfl
  | cons e l ih => exact congrArg (e :: ·) ih

namespace UvConnection

variable {uv : Libuv} {passes : Nat}

/-- From one state of a connection to a later one nothing was executed and no
error was replied, and where reading goes on only the count of tasks is another. -/
structure Silent (c d : UvConnection) : Prop where
  executed : d.session.executed = c.session.executed
  errors : d.session.clientErrors = c.session.clientErrors
  goesOn : d.reading = true → c.reading = true ∧ ∃ n,
    d.session = { c.session with conn := { c.session.conn with runningTasks := n } }

theorem Silent.refl (c : UvConnection) : Silent c c := ⟨rfl, rfl, fun h => ⟨h, _, rfl⟩⟩

theorem silent_onStop (c : UvConnection) : Silent c c.onStop := by
  obtain ⟨_, hd⟩ | ⟨d, rfl, _, ⟨_, hd⟩ | ⟨_, hd⟩⟩ := c.onStop_cases <;> rw [hd]
  · exact ⟨rfl, rfl, fun h => ⟨h, _, rfl⟩⟩
  · exact ⟨executed_record_uvClose _, errors_record_uvClose _, by simp [uvClose]⟩
  · exact ⟨rfl, rfl, by simp⟩

theorem silent_of_step {c d : UvConnection} {e : Callback} {r : Unit}
    (hread : ∀ data, e ≠ .readData data) (hs : c.step uv passes e = some (d, r)) : Silent c d := by
  cases moves_of_step hs with
  | read reading step => exact absurd rfl (hread _)
  | ended reading moved => exact ⟨executed_record_uvClose _, errors_record_uvClose _, by simp⟩
  | executed sent rc => exact ⟨rfl, rfl, fun h => ⟨h, _, rfl⟩⟩
  | wrote pending status =>
    obtain ⟨d, rfl, ⟨_, _, hd⟩ | ⟨_, hd⟩⟩ := onWriteDone_cases c <;> rw [hd]
    · exact ⟨executed_record_uvClose _, errors_record_uvClose _, by simp [uvClose]⟩
    · exact ⟨rfl, rfl, fun h => ⟨h, _, rfl⟩⟩
  | stopped first => exact silent_onStop c
  | @closed callback last first => cases callback <;> exact ⟨rfl, rfl, fun h => ⟨h, _, rfl⟩⟩

theorem silent_onConnectionOpen (memory : Bytes) (negative : Bool) (accept readStart : Int32) :
    (onConnectionOpen memory negative accept readStart).session.executed = [] ∧
      (onConnectionOpen memory negative accept readStart).session.clientErrors = [] := by
  unfold onConnectionOpen
  dsimp only
  split
  next => exact ⟨rfl, rfl⟩
  next => split <;> exact ⟨rfl, rfl⟩

end UvConnection

namespace UvService

variable {uv : Libuv} {passes : Nat}

/-- Every connection behind the event was there before it, and the event was silent
on it, or it is the one that the event opened. -/
def Keeps (e : WorkerEvent) (w w' : UvWorker) : Prop :=
  w.conns.length ≤ w'.conns.length ∧ ∀ i d, w'.conns[i]? = some d →
    (∃ c, w.conns[i]? = some c ∧ c.Silent d) ∨
      (w.conns.length ≤ i ∧ ∃ memory negative accept readStart,
        e = .connectionOpen memory negative accept readStart ∧
          d = .onConnectionOpen memory negative accept readStart)

theorem keeps_set {w w' : UvWorker} {i : Nat} {c d : UvConnection} (hc : w.conns[i]? = some c)
    (hsilent : c.Silent d) (hconns : w'.conns = w.conns.set i d) (e : WorkerEvent) :
    Keeps e w w' := by
  refine ⟨by rw [hconns, List.length_set], fun j d' hd => Or.inl ?_⟩
  rw [hconns] at hd
  by_cases hij : i = j
  · subst hij
    rw [List.getElem?_set_self (List.getElem?_eq_some_iff.mp hc).1] at hd
    cases hd
    exact ⟨c, hc, hsilent⟩
  · rw [List.getElem?_set_ne hij] at hd
    exact ⟨d', hd, .refl d'⟩

theorem keeps_of_step {w w' : UvWorker} {e : WorkerEvent}
    (hread : ∀ i data, e ≠ .callback i (.readData data)) (hs : w.step uv passes e = some (w', ())) :
    Keeps e w w' := by
  cases UvWorker.moves_of_step hs with
  | opened running memory negative accept readStart =>
    refine ⟨by simp, fun i d hd => ?_⟩
    dsimp only at hd
    by_cases hlt : i < w.conns.length
    · rw [List.getElem?_append_left hlt] at hd
      exact Or.inl ⟨d, hd, .refl d⟩
    · rw [List.getElem?_append_right (by omega)] at hd
      exact Or.inr ⟨by omega, _, _, _, _, rfl, List.mem_singleton.mp (List.mem_of_getElem? hd)⟩
  | called conn step _ _ =>
    have hsilent := UvConnection.silent_of_step (fun data he => hread _ data (by rw [he])) step
    exact keeps_set conn hsilent rfl _
  | closed conn step =>
    have hsilent := UvConnection.silent_of_step (fun data he => by cases he) step
    exact keeps_set conn hsilent (UvWorker.closeEventLoppIfPossible_conns _) _
  | stopped running =>
    refine ⟨by simp [UvWorker.onStop], fun i d hd => Or.inl ?_⟩
    simp only [UvWorker.onStop, UvWorker.closeEventLoppIfPossible_conns, List.getElem?_map] at hd
    obtain ⟨c, hc, rfl⟩ := Option.map_eq_some_iff.mp hd
    exact ⟨c, hc, c.silent_onStop⟩
  | handleClosed pending =>
    refine ⟨by simp, fun i d hd => Or.inl ⟨d, ?_, .refl d⟩⟩
    simpa using hd

/-- This is an order of the commands that the connections have executed, each
connection's own as it executed them, and of no others. -/
structure Ordered (v : UvService) (order : List (Nat × (Command × Bytes) × Bytes)) : Prop where
  executed : ∀ i c, v.worker.conns[i]? = some c →
    (part order i).map Prod.fst = c.session.executed
  known : ∀ i, v.worker.conns.length ≤ i → part order i = []

/-- The commands of all connections in the order of their execution, each with its
connection and its output: what they lead to on the worker's own storage, and for each
connection its own commands, its results, written or waiting, and its errors. -/
structure Serves (maxSize : Int32) (v : UvService)
    (order : List (Nat × (Command × Bytes) × Bytes)) : Prop where
  legal : PartialRun.Reach Store.serve (Store.fresh maxSize) (order.map Prod.snd) v.store
  known : ∀ i, v.worker.conns.length ≤ i → part order i = [] ∧ part v.written i = []
  executed : ∀ i c, v.worker.conns[i]? = some c →
    (part order i).map Prod.fst = c.session.executed
  results : ∀ i, Sent.results (part v.written i) ++ part v.results i =
    (part order i).map fun e => taskResult e.2
  errors : ∀ i c, v.worker.conns[i]? = some c →
    Sent.errors (part v.written i) = c.session.clientErrors

theorem Serves.ordered {m : Int32} {v : UvService} {order : List (Nat × (Command × Bytes) × Bytes)}
    (h : Serves m v order) : v.Ordered order :=
  ⟨h.executed, fun i hi => (h.known i hi).1⟩

theorem started_serves (m : Int32) : Serves m (started m) [] :=
  ⟨.start, fun i _ => ⟨rfl, rfl⟩, fun i c hc => by simp [started, UvWorker.started] at hc,
    fun i => rfl, fun i c hc => by simp [started, UvWorker.started] at hc⟩

theorem Serves.keeps {m : Int32} {v : UvService} {order : List (Nat × (Command × Bytes) × Bytes)}
    (h : Serves m v order) {w : UvWorker} {e : WorkerEvent} (hkeeps : Keeps e v.worker w) :
    Serves m { v with worker := w } order := by
  refine ⟨h.legal, fun i hi => h.known i (hkeeps.1.trans hi), fun i d hd => ?_, h.results,
    fun i d hd => ?_⟩
  · rcases hkeeps.2 i d hd with ⟨c, hc, hsilent⟩ | ⟨hnew, memory, negative, accept, readStart, _, rfl⟩
    · rw [hsilent.executed]
      exact h.executed i c hc
    · rw [(UvConnection.silent_onConnectionOpen _ _ _ _).1, (h.known i hnew).1]
      rfl
  · rcases hkeeps.2 i d hd with ⟨c, hc, hsilent⟩ | ⟨hnew, memory, negative, accept, readStart, _, rfl⟩
    · rw [hsilent.errors]
      exact h.errors i c hc
    · rw [(UvConnection.silent_onConnectionOpen _ _ _ _).2]
      dsimp only
      rw [(h.known i hnew).2]
      rfl

/-- The oldest result goes from the waiting ones to the written ones. -/
theorem Serves.done {m : Int32} {v : UvService} {order : List (Nat × (Command × Bytes) × Bytes)}
    (h : Serves m v order) {i : Nat} {c : UvConnection} (hc : v.worker.conns[i]? = some c)
    {output : Bytes} {rest : List (Nat × Bytes)} (hfirst : v.results = (i, output) :: rest) :
    Serves m { v with results := rest, written := v.written ++ [(i, .result output)] } order := by
  have hlt := (List.getElem?_eq_some_iff.mp hc).1
  have hother : ∀ j, j ≠ i → part (v.written ++ [(i, .result output)]) j = part v.written j ∧
      part rest j = part v.results j := by
    intro j hj
    rw [part_append, part_cons_of_ne hj.symm, part_nil, List.append_nil, hfirst,
      part_cons_of_ne hj.symm]
    exact ⟨rfl, rfl⟩
  refine ⟨h.legal, fun j hj => ?_, h.executed, fun j => ?_, fun j c' hc' => ?_⟩
  · dsimp only
    rw [(hother j (by dsimp only at hj; omega)).1]
    exact h.known j hj
  · dsimp only
    by_cases hj : j = i
    · subst hj
      rw [← h.results j, hfirst, part_append, Sent.results_append, part_cons_self, part_cons_self,
        part_nil, List.append_assoc]
      rfl
    · rw [(hother j hj).1, (hother j hj).2]
      exact h.results j
  · rw [← h.errors j c' hc']
    dsimp only
    by_cases hj : j = i
    · subst hj
      rw [part_append, Sent.errors_append, part_cons_self, part_nil]
      exact List.append_nil _
    · rw [(hother j hj).1]

/-- A read executes commands of its connection, and may reply an error. -/
theorem Serves.read {m : Int32} {v : UvService} {order : List (Nat × (Command × Bytes) × Bytes)}
    (h : Serves m v order) {w : UvWorker} {i : Nat} {c d : UvConnection} {s : Store}
    {outputs : List ((Command × Bytes) × Bytes)} (hc : v.worker.conns[i]? = some c)
    (hexecuted : c.session.executed <+: d.session.executed)
    (herrors : c.session.clientErrors <+: d.session.clientErrors)
    (hconns : w.conns = v.worker.conns.set i d)
    (hruns : PartialRun.run Store.serve v.store
      (d.session.executed.drop c.session.executed.length) = some (s, outputs)) :
    Serves m {
      worker := w
      store := s
      results := v.results ++ outputs.map fun e => (i, taskResult e.2)
      written := v.written ++ (d.session.clientErrors.drop c.session.clientErrors.length).map
        fun e => (i, .error e) } (order ++ outputs.map fun e => (i, e)) := by
  have hlt := (List.getElem?_eq_some_iff.mp hc).1
  have hself : w.conns[i]? = some d := by rw [hconns, List.getElem?_set_self hlt]
  have hcalls := PartialRun.run_calls hruns
  refine ⟨?_, fun j hj => ?_, fun j d' hd => ?_, fun j => ?_, fun j d' hd => ?_⟩
  · have hsplit : (order ++ outputs.map fun e => (i, e)).map Prod.snd =
        order.map Prod.snd ++ outputs := by
      rw [List.map_append, List.map_map]
      exact congrArg _ (List.map_id outputs)
    rw [hsplit]
    exact PartialRun.Reach.of_run h.legal hruns
  · have hne : i ≠ j := by
      rw [hconns, List.length_set] at hj
      omega
    rw [hconns, List.length_set] at hj
    dsimp only
    rw [part_append, part_append, part_tagged_of_ne hne, part_tagged_of_ne hne, List.append_nil,
      List.append_nil]
    exact h.known j hj
  · by_cases hj : i = j
    · subst hj
      cases hself.symm.trans hd
      rw [part_append, part_tagged_self i outputs fun e => e, List.map_append, h.executed i c hc,
        List.map_id', hcalls]
      exact List.prefix_iff_eq_append.mp hexecuted
    · rw [hconns, List.getElem?_set_ne hj] at hd
      rw [part_append, part_tagged_of_ne hj, List.append_nil]
      exact h.executed j d' hd
  · dsimp only
    by_cases hj : i = j
    · subst hj
      rw [part_append, part_append, part_append, part_tagged_self i _ Sent.error, part_tagged_self,
        part_tagged_self i outputs fun e => e, Sent.results_append, Sent.results_of_errors,
        List.append_nil, ← List.append_assoc, h.results i, List.map_append, List.map_id']
    · rw [part_append, part_append, part_append, part_tagged_of_ne hj, part_tagged_of_ne hj,
        part_tagged_of_ne hj, List.append_nil, List.append_nil, List.append_nil]
      exact h.results j
  · dsimp only
    by_cases hj : i = j
    · subst hj
      cases hself.symm.trans hd
      rw [part_append, part_tagged_self i _ Sent.error, Sent.errors_append, Sent.errors_of_errors,
        h.errors i c hc]
      exact List.prefix_iff_eq_append.mp herrors
    · rw [hconns, List.getElem?_set_ne hj] at hd
      rw [part_append, part_tagged_of_ne hj, List.append_nil]
      exact h.errors j d' hd

theorem Serves.step {m : Int32} {v v' : UvService} {e : WorkerEvent}
    {order : List (Nat × (Command × Bytes) × Bytes)} (h : Serves m v order)
    (hm : Moves uv passes v e v') : ∃ more, Serves m v' (order ++ more) := by
  cases hm with
  | other step noRead noDone =>
    refine ⟨[], ?_⟩
    rw [List.append_nil]
    exact h.keeps (keeps_of_step noRead step)
  | @done w i rc c d output rest conn step conns first =>
    refine ⟨[], ?_⟩
    rw [List.append_nil]
    have hsilent := UvConnection.silent_of_step (by simp) step
    exact (h.done conn first).keeps (keeps_set conn hsilent conns (.callback i (.executionDone rc)))
  | @read w i data c d s outputs conn step conns runs =>
    cases UvConnection.moves_of_step step with
    | read reading sessionStep =>
      obtain ⟨extra, _, howed⟩ := Session.step_owed sessionStep
      exact ⟨_, h.read conn howed.executed howed.errors conns runs⟩

theorem Reach.serves {m : Int32} {history : List (WorkerEvent × Unit)} {v : UvService}
    (reach : Reach uv passes m history v) : ∃ order, Serves m v order := by
  induction reach with
  | start => exact ⟨[], started_serves m⟩
  | next _ hs ih =>
    obtain ⟨order, hserves⟩ := ih
    obtain ⟨more, hserves'⟩ := hserves.step (moves_of_step hs)
    exact ⟨_, hserves'⟩

end UvService

/-- In every state of a uv worker with a storage of its own, whatever its clients send
and in whatever order reads, results and ends of connections come: there is one order of
the executed commands in which the abstract cache gives the same outputs; each
connection has in it the commands that were executed for it, and no others are in it;
and of these each has exactly one result, written or still waiting, in their order. The
rest of what is written are the error replies. -/
theorem uv_replies_in_order {uv : Libuv} {passes : Nat} {m : Int32} (hm : 0 ≤ m)
    {history : List (WorkerEvent × Unit)} {v : UvService}
    (reach : UvService.Reach uv passes m history v) :
    ∃ order : List (Nat × (Command × Bytes) × Bytes),
      PartialRun.Reach Cache.serve (Cache.fresh m) (order.map Prod.snd) v.store.cache ∧
      v.Ordered order ∧
      ∀ i c, v.worker.conns[i]? = some c →
        Sent.results (part v.written i) ++ part v.results i =
          (part order i).map (fun e => taskResult e.2) ∧
        Sent.errors (part v.written i) = c.session.clientErrors := by
  obtain ⟨order, hserves⟩ := UvService.Reach.serves reach
  exact ⟨order, (Store.serve_cache hm hserves.legal).2, hserves.ordered, fun i c hc =>
    ⟨hserves.results i, hserves.errors i c hc⟩⟩

/-- An error of the second client while its earlier result waits. -/
theorem uv_replies_in_order_error :
    ∃ history v, UvService.Reach .working 8 100 history v ∧
      v.written = [(0, .result (text "STORED\r\n")), (1, .error (text "CLIENT_ERROR Unknown command name\r\n"))] ∧
      v.results = [(1, text "VALUE k 0 1\r\nv\r\nEND\r\n")] ∧
      ∃ order : List (Nat × (Command × Bytes) × Bytes),
        PartialRun.Reach Cache.serve (Cache.fresh 100) (order.map Prod.snd) v.store.cache ∧
        v.Ordered order ∧
        ∀ i c, v.worker.conns[i]? = some c →
          Sent.results (part v.written i) ++ part v.results i =
            (part order i).map (fun e => taskResult e.2) ∧
          Sent.errors (part v.written i) = c.session.clientErrors := by
  obtain ⟨history, v, reach, _, hwritten, hresults⟩ := PartialRun.reach_of_check
    (UvService.step .working 8) (UvService.started 100)
    [.connectionOpen (List.replicate connectionInputBufferSize 0) false 0 0,
      .connectionOpen (List.replicate connectionInputBufferSize 0) false 0 0,
      .callback 0 (.readData (text "set k 0 0 1\r\nv\r\n")), .callback 1 (.readData (text "get k\r\n")),
      .callback 0 (.executionDone 0), .callback 1 (.readData (text "put\r\n"))]
    (fun v => v.written = [(0, .result (text "STORED\r\n")),
        (1, .error (text "CLIENT_ERROR Unknown command name\r\n"))] ∧
      v.results = [(1, text "VALUE k 0 1\r\nv\r\nEND\r\n")]) (by decide)
  exact ⟨history, v, reach, hwritten, hresults, uv_replies_in_order (by decide) reach⟩

end Afina
