import Afina.ConnectionPipeline
import Afina.UvReplies

namespace Afina

open Tagged

namespace Session

theorem Sync.of_count {s : Session} {n : Nat} {calls : List (Command × Bytes)} (h : s.Sync n calls)
    (k : Nat) : Sync { s with conn := { s.conn with runningTasks := k } } n calls :=
  ⟨h.parsed, h.buffer, h.place, h.consumed, h.executed⟩

end Session

theorem Connection.At.of_count {c : Connection} {rest : Bytes} {pending : List (Command × Bytes)}
    (h : c.At rest pending) (k : Nat) :
    Connection.At { c with runningTasks := k } rest pending := by
  cases h with
  | ready h => exact .ready ⟨h.state, h.parser, h.cmd, h.body⟩
  | inside hq h =>
    refine .inside hq ?_
    cases h with
    | header state split more scanned incomplete empty =>
      exact .header state split more scanned incomplete empty
    | body state split more size cmd => exact .body state split more size cmd
    | trailerCR state body cmd => exact .trailerCR state body cmd
    | trailerLF state body cmd => exact .trailerLF state body cmd

/-- What is done of the requests of a client, with these reads still to come: the
commands executed, the one that is under way, and those of which nothing has come. -/
structure Account (requests : List Request) (remaining : List Bytes)
    (calls pending : List (Command × Bytes)) (rest : Bytes) (left : List Request) : Prop where
  cut : CutAt rest left remaining
  border : rest = [] → pending = []
  all : calls ++ pending ++ left.map Request.call = requests.map Request.call
  wellFormed : ∀ q ∈ left, q.WellFormed

theorem Account.end {requests : List Request} {calls pending : List (Command × Bytes)} {rest : Bytes}
    {left : List Request} (h : Account requests [] calls pending rest left) :
    calls = requests.map Request.call := by
  obtain ⟨first, groups, hreads, hfirst, hgroups⟩ := h.cut
  obtain ⟨rfl, hnil⟩ := List.append_eq_nil_iff.mp hreads.symm
  have hleft : left = [] := by
    refine requests_nil ?_
    rw [← hgroups, ← List.flatten_flatten, hnil]
    rfl
  have hpending := h.border hfirst.symm
  have hall := h.all
  rw [hpending, hleft, List.append_nil, List.map_nil, List.append_nil] at hall
  exact hall

/-- A connection keeps up with its client: nothing was refused, and while it reads,
it stands where the account says. -/
def UvConnection.Keeping (requests : List Request) (remaining : List Bytes) (c : UvConnection) :
    Prop :=
  ∃ pending rest left, Account requests remaining c.session.executed pending rest left ∧
    c.session.clientErrors = [] ∧
    (c.reading = true → (∃ n, c.session.Sync n c.session.executed) ∧
      c.session.conn.At rest pending)

namespace UvConnection

variable {uv : Libuv} {passes : Nat} {requests : List Request} {remaining : List Bytes}

theorem Keeping.silent {c d : UvConnection} (h : c.Keeping requests remaining)
    (hsilent : c.Silent d) : d.Keeping requests remaining := by
  obtain ⟨pending, rest, left, haccount, herrors, hreading⟩ := h
  refine ⟨pending, rest, left, ?_, hsilent.errors.trans herrors, fun hd => ?_⟩
  · rw [hsilent.executed]
    exact haccount
  · obtain ⟨hc, k, hsession⟩ := hsilent.goesOn hd
    obtain ⟨⟨n, hsync⟩, hat⟩ := hreading hc
    rw [hsilent.executed, hsession]
    exact ⟨⟨n, hsync.of_count k⟩, hat.of_count k⟩

theorem onConnectionOpen_keeping {memory : Bytes}
    (hmemory : memory.length = connectionInputBufferSize) (negative : Bool)
    (accept readStart : Int32) (hwf : ∀ q ∈ requests, q.WellFormed)
    (hcut : CutAt [] requests remaining) :
    (onConnectionOpen memory negative accept readStart).Keeping requests remaining := by
  obtain ⟨hexecuted, herrors⟩ := silent_onConnectionOpen memory negative accept readStart
  refine ⟨[], [], requests, ?_, herrors, fun hreading => ?_⟩
  · rw [hexecuted]
    exact ⟨hcut, fun _ => rfl, rfl, hwf⟩
  · have hsession : (onConnectionOpen memory negative accept readStart).session =
        Session.fresh memory negative := by
      unfold onConnectionOpen at hreading ⊢
      dsimp only at hreading ⊢
      split at hreading
      next => cases hreading
      next =>
        split at hreading
        next => cases hreading
        next h1 h2 => simp [h1, h2]
    rw [hexecuted, hsession]
    exact ⟨⟨0, Session.fresh_sync hmemory negative⟩, .ready (Session.fresh_ready memory negative)⟩

theorem Keeping.at_request {c : UvConnection} {r : Bytes}
    (h : c.Keeping requests (r :: remaining)) (hne : ∀ r' ∈ r :: remaining, r' ≠ [])
    (hreading : c.reading = true) :
    ∃ n q rest left, c.session.Sync n c.session.executed ∧ q.WellFormed ∧
      c.session.conn.Inside q rest ∧
      Account requests (r :: remaining) c.session.executed [q.call] rest left := by
  obtain ⟨pending, rest, left, haccount, _, hat⟩ := h
  obtain ⟨⟨n, hsync⟩, hat⟩ := hat hreading
  cases hat with
  | inside hq hin => exact ⟨n, _, rest, left, hsync, hq, hin, haccount⟩
  | ready hready =>
    cases left with
    | nil =>
      obtain ⟨first, groups, hreads, hfirst, hgroups⟩ := haccount.cut
      have hnil : groups = [] := by simpa using hgroups
      rw [hnil, List.flatten_nil, List.append_nil] at hreads
      rw [← hreads] at hfirst
      exact absurd (List.append_eq_nil_iff.mp hfirst).1 (hne r List.mem_cons_self)
    | cons q left =>
      have hcut := (cutAt_border_iff hne).mp haccount.cut
      refine ⟨n, q, q.encode, left, hsync, haccount.wellFormed q List.mem_cons_self,
        hready.inside q, hcut, fun h => absurd h q.encode_ne_nil, by simpa using haccount.all, ?_⟩
      exact fun q' hq' => haccount.wellFormed q' (List.mem_cons_of_mem q hq')

/-- A read inside a command, with the account of what comes behind it. -/
theorem read_inside (works : ∀ log, uv.asyncInit log = 0) {s t : Session} {n : Nat} {r rest : Bytes}
    {q : Request} {left : List Request} (hq : q.WellFormed) (hsync : s.Sync n s.executed)
    (hin : s.conn.Inside q rest) (hfits : r.length ≤ connectionInputBufferSize)
    (haccount : Account requests (r :: remaining) s.executed [q.call] rest left)
    (hs : s.step uv passes r = some (t, ())) :
    ∃ pending rest', Account requests remaining t.executed pending rest' left ∧
      (∃ n, t.Sync n t.executed) ∧ t.conn.At rest' pending ∧ t.conn.state ≠ .sClosed := by
  obtain ⟨rest', hrest, hcut⟩ := haccount.cut.tail hin.rest_ne_nil
  obtain ⟨u, _, hunique, hafter⟩ := Session.step_inside hq works hsync hin hrest hfits
  cases hunique passes t () hs
  rcases hafter with ⟨hne, hsync', hin'⟩ | ⟨hnil, hsync', hready⟩
  · have hexecuted := hsync'.executed
    refine ⟨[q.call], rest', ⟨hcut, fun h => absurd h hne, ?_, haccount.wellFormed⟩,
      ⟨n + r.length, ?_⟩, .inside hq hin', hin'.not_closed⟩
    · rw [hexecuted]
      exact haccount.all
    · rw [hexecuted]
      exact hsync'
  · have hexecuted := hsync'.executed
    refine ⟨[], rest', ⟨hcut, fun _ => rfl, ?_, haccount.wellFormed⟩, ⟨n + r.length, ?_⟩,
      hready.border hnil, ?_⟩
    · rw [hexecuted, List.append_nil]
      exact haccount.all
    · rw [hexecuted]
      exact hsync'
    · rw [hready.state]
      decide

/-- A read of the next bytes of a client whose reads have one command each. -/
theorem Keeping.read (works : ∀ log, uv.asyncInit log = 0) {c d : UvConnection} {r : Bytes}
    (h : c.Keeping requests (r :: remaining)) (hne : ∀ r' ∈ r :: remaining, r' ≠ [])
    (hfits : r.length ≤ connectionInputBufferSize)
    (hs : c.step uv passes (.readData r) = some (d, ())) : d.Keeping requests remaining := by
  cases moves_of_step hs with
  | @read reading _ t step =>
    obtain ⟨n, q, rest, left, hsync, hq, hin, haccount⟩ := h.at_request hne reading
    obtain ⟨pending, rest', haccount', hsync', hat, hopen⟩ :=
      read_inside works hq hsync hin hfits haccount step
    refine ⟨pending, rest', left, haccount', ?_, fun _ => ⟨hsync', hat⟩⟩
    obtain ⟨_, _, _, _, herrors, _⟩ := h
    rcases Session.step_errors step with ⟨hsame, _⟩ | ⟨_, hclosed, _⟩
    · exact hsame.trans herrors
    · exact absurd hclosed hopen

/-- `OnRead` returns from such a read, and has executed at most one command. -/
theorem Keeping.read_returns (works : ∀ log, uv.asyncInit log = 0)
    (hp : connectionInputBufferSize ≤ passes) {c : UvConnection} {r : Bytes}
    (h : c.Keeping requests (r :: remaining)) (hne : ∀ r' ∈ r :: remaining, r' ≠ [])
    (hfits : r.length ≤ connectionInputBufferSize) (hrunning : ¬ c.ClosedTwice)
    (hreading : c.reading = true) (hlive : c.deleted = false) :
    ∃ d calls, c.step uv passes (.readData r) = some (d, ()) ∧ calls.length ≤ 1 ∧
      d.session.executed = c.session.executed ++ calls ∧
      c.session.executed ++ calls <+: requests.map Request.call := by
  obtain ⟨n, q, rest, left, hsync, hq, hin, haccount⟩ := h.at_request hne hreading
  obtain ⟨rest', hrest, _⟩ := haccount.cut.tail hin.rest_ne_nil
  obtain ⟨t, hstep, _, hafter⟩ := Session.step_inside hq works hsync hin hrest hfits
  have hall := haccount.all
  have hresult : c.step uv passes (.readData r) = some ({ c with
      session := t
      asyncs := c.asyncs + (t.executed.length - c.session.executed.length)
      writes := c.writes + (t.clientErrors.length - c.session.clientErrors.length) }, ()) := by
    rw [step_of_onCallback hrunning]
    simp [onCallback, hreading, hlive, onReadData, hstep passes hp]
  rcases hafter with ⟨_, hsync', _⟩ | ⟨_, hsync', _⟩
  · refine ⟨_, [], hresult, Nat.zero_le 1, by rw [List.append_nil]; exact hsync'.executed, ?_⟩
    rw [List.append_nil, ← hall, List.append_assoc]
    exact List.prefix_append _ _
  · refine ⟨_, [q.call], hresult, Nat.le_refl 1, hsync'.executed, ?_⟩
    rw [← hall]
    exact List.prefix_append _ _

end UvConnection

namespace UvService

/-- The reads of one connection. -/
def readsOf (history : List (WorkerEvent × Unit)) (i : Nat) : List Bytes :=
  history.filterMap fun
    | (.callback j (.readData data), _) => if j = i then some data else none
    | _ => none

/-- The buffer of every connection has its size. -/
def Buffers (history : List (WorkerEvent × Unit)) : Prop :=
  ∀ memory negative accept readStart r, (.connectionOpen memory negative accept readStart, r) ∈ history →
    memory.length = connectionInputBufferSize

variable {uv : Libuv} {passes : Nat} {m : Int32} {requests : List Request} {reads : List Bytes}
  {i : Nat}

theorem readsOf_append (first second : List (WorkerEvent × Unit)) (i : Nat) :
    readsOf (first ++ second) i = readsOf first i ++ readsOf second i :=
  List.filterMap_append

theorem readsOf_other {e : WorkerEvent} {r : Unit} (h : ∀ data, e ≠ .callback i (.readData data)) :
    readsOf [(e, r)] i = [] := by
  refine List.filterMap_eq_nil_iff.mpr fun x hx => ?_
  cases List.mem_singleton.mp hx
  split
  next j data u heq =>
    rw [if_neg]
    rintro rfl
    exact h data (congrArg Prod.fst heq)
  next => rfl

/-- At this moment of the service, one connection keeps up with its client in
whatever is still to come of its reads, and before it is opened there were none. -/
def KeepsUp (requests : List Request) (reads : List Bytes) (i : Nat)
    (history : List (WorkerEvent × Unit)) (v : UvService) : Prop :=
  (v.worker.conns[i]? = none → readsOf history i = []) ∧
    ∀ remaining, readsOf history i ++ remaining = reads →
      ∀ c, v.worker.conns[i]? = some c → c.Keeping requests remaining

theorem KeepsUp.keeps {history : List (WorkerEvent × Unit)} {v v' : UvService} {e : WorkerEvent}
    {r : Unit} (h : KeepsUp requests reads i history v) (hwf : ∀ q ∈ requests, q.WellFormed)
    (hcut : CutAt [] requests reads) (hbuffers : Buffers (history ++ [(e, r)]))
    (hread : ∀ data, e ≠ .callback i (.readData data)) (hkeeps : Keeps e v.worker v'.worker) :
    KeepsUp requests reads i (history ++ [(e, r)]) v' := by
  have hsame : readsOf (history ++ [(e, r)]) i = readsOf history i := by
    rw [readsOf_append, readsOf_other hread, List.append_nil]
  rw [KeepsUp, hsame]
  refine ⟨fun hnone => h.1 ?_, fun remaining hsplit d hd => ?_⟩
  · rw [List.getElem?_eq_none_iff] at hnone ⊢
    exact hkeeps.1.trans hnone
  · rcases hkeeps.2 i d hd with ⟨c, hc, hsilent⟩ | ⟨hnew, memory, negative, accept, readStart, rfl, rfl⟩
    · exact (h.2 remaining hsplit c hc).silent hsilent
    · rw [h.1 (List.getElem?_eq_none_iff.mpr hnew), List.nil_append] at hsplit
      rw [hsplit]
      have hmemory := hbuffers memory negative accept readStart r (by simp)
      exact UvConnection.onConnectionOpen_keeping hmemory negative accept readStart hwf hcut

theorem KeepsUp.read (works : ∀ log, uv.asyncInit log = 0)
    (hreads : ∀ r ∈ reads, r ≠ [] ∧ r.length ≤ connectionInputBufferSize)
    {history : List (WorkerEvent × Unit)} {v v' : UvService} {data : Bytes} {c d : UvConnection}
    {r : Unit} (h : KeepsUp requests reads i history v) (hc : v.worker.conns[i]? = some c)
    (hs : c.step uv passes (.readData data) = some (d, ()))
    (hconns : v'.worker.conns = v.worker.conns.set i d) :
    KeepsUp requests reads i (history ++ [(.callback i (.readData data), r)]) v' := by
  have hself : v'.worker.conns[i]? = some d := by
    rw [hconns, List.getElem?_set_self (List.getElem?_eq_some_iff.mp hc).1]
  have hmore : readsOf (history ++ [(.callback i (.readData data), r)]) i =
      readsOf history i ++ [data] := by
    rw [readsOf_append]
    simp [readsOf]
  refine ⟨fun hnone => by simp [hself] at hnone, fun remaining hsplit d' hd => ?_⟩
  cases hself.symm.trans hd
  rw [hmore, List.append_assoc, List.singleton_append] at hsplit
  have hmem : ∀ r ∈ data :: remaining, r ∈ reads := fun r hr => by
    rw [← hsplit]
    exact List.mem_append_right _ hr
  exact (h.2 _ hsplit c hc).read works (fun r hr => (hreads r (hmem r hr)).1)
    (hreads data (hmem data List.mem_cons_self)).2 hs

theorem Reach.keepsUp (works : ∀ log, uv.asyncInit log = 0) (hwf : ∀ q ∈ requests, q.WellFormed)
    (hreads : ∀ r ∈ reads, r ≠ [] ∧ r.length ≤ connectionInputBufferSize)
    (hcut : CutAt [] requests reads) {history : List (WorkerEvent × Unit)} {v : UvService}
    (reach : Reach uv passes m history v) (hbuffers : Buffers history) :
    KeepsUp requests reads i history v := by
  induction reach with
  | start => exact ⟨fun _ => rfl, fun remaining _ c hc => by simp [started, UvWorker.started] at hc⟩
  | @next history v e r v' reach hs ih =>
    have hprevious := ih fun memory negative accept readStart r hmem =>
      hbuffers memory negative accept readStart r (List.mem_append_left _ hmem)
    cases moves_of_step hs with
    | other step noRead noDone =>
      exact hprevious.keeps hwf hcut hbuffers (fun data => noRead i data) (keeps_of_step noRead step)
    | @done w j rc c d output rest conn step conns first =>
      have hsilent := UvConnection.silent_of_step (by simp) step
      exact hprevious.keeps hwf hcut hbuffers (by simp) (keeps_set conn hsilent conns _)
    | @read w j data c d s outputs conn step conns runs =>
      by_cases hj : j = i
      · subst hj
        exact hprevious.read works hreads conn step conns
      · have hsame : readsOf (history ++ [(.callback j (.readData data), r)]) i = readsOf history i := by
          rw [readsOf_append, readsOf_other (by simp [hj]), List.append_nil]
        rw [KeepsUp, hsame]
        dsimp only
        rw [conns, List.getElem?_set_ne hj]
        exact hprevious

/-- A read that returns lets the service go on if its commands have an outcome. -/
theorem step_read {v : UvService} (hrunning : ¬ v.worker.Aborted) {i : Nat} {c d : UvConnection}
    {data : Bytes} {calls : List (Command × Bytes)} (hc : v.worker.conns[i]? = some c)
    (hs : c.step uv passes (.readData data) = some (d, ()))
    (hcalls : d.session.executed = c.session.executed ++ calls) :
    (v.step uv passes (.callback i (.readData data))).isSome =
      (PartialRun.run Store.serve v.store calls).isSome := by
  have hlt := (List.getElem?_eq_some_iff.mp hc).1
  have hdrop : d.session.executed.drop c.session.executed.length = calls := by
    rw [hcalls, List.drop_left]
  rw [step, UvWorker.step_of_onEvent hrunning]
  simp only [UvWorker.onEvent, UvWorker.onCallback, hc, hs, Option.bind_eq_bind, Option.bind_some,
    Option.pure_def, Option.map_some, List.getElem?_set_self hlt, served, hdrop]
  cases PartialRun.run Store.serve v.store calls <;> rfl

end UvService

theorem Sent.eq_results {l : List Sent} (h : Sent.errors l = []) : l = (Sent.results l).map .result := by
  induction l with
  | nil => rfl
  | cons e l ih =>
    cases e with
    | result output => exact congrArg (Sent.result output :: ·) (ih h)
    | error output => cases h

/-- A client of a uv worker with a storage of its own, whose reads are not empty, fit
into the buffer and have bytes of one well-formed command each, among any other clients.
There is one order of the commands that all connections have executed; in it the
commands of this client stand in the order in which it sent them, with their own bodies;
and what is written to it are the outputs that the abstract cache gives in that order,
each with a line end, and those that still wait follow. The expiration time in the
command of a request is the `parsedExpire` of its own, as the parser makes it. -/
theorem uv_client_served {uv : Libuv} (works : ∀ log, uv.asyncInit log = 0) {passes : Nat}
    {m : Int32} (hm : 0 ≤ m) {history : List (WorkerEvent × Unit)} {v : UvService}
    (reach : UvService.Reach uv passes m history v) (buffers : UvService.Buffers history)
    {i : Nat} {c : UvConnection} (hc : v.worker.conns[i]? = some c) {requests : List Request}
    (wellFormed : ∀ q ∈ requests, q.WellFormed)
    (reads : ∀ r ∈ UvService.readsOf history i, r ≠ [] ∧ r.length ≤ connectionInputBufferSize)
    (cut : OneCommandPerRead requests (UvService.readsOf history i)) :
    ∃ (order : List (Nat × (Command × Bytes) × Bytes)) (early late : List Bytes),
      PartialRun.Reach Cache.serve (Cache.fresh m) (order.map Prod.snd) v.store.cache ∧
      v.Ordered order ∧ (part order i).map Prod.fst = requests.map Request.call ∧
      (part order i).map (fun e => taskResult e.2) = early ++ late ∧
      part v.written i = early.map .result ∧ part v.results i = late := by
  obtain ⟨order, hserves⟩ := UvService.Reach.serves reach
  have hcut := (oneCommandPerRead_iff fun r hr => (reads r hr).1).mp cut
  have hkeeps := UvService.Reach.keepsUp (i := i) works wellFormed reads hcut reach buffers
  obtain ⟨pending, rest, left, haccount, herrors, _⟩ := hkeeps.2 [] (List.append_nil _) c hc
  refine ⟨order, Sent.results (part v.written i), part v.results i,
    (Store.serve_cache hm hserves.legal).2, hserves.ordered, ?_, (hserves.results i).symm, ?_, rfl⟩
  · rw [hserves.executed i c hc]
    exact haccount.end
  · exact Sent.eq_results ((hserves.errors i c hc).trans herrors)

/-- The next read of such a client, in every state of the service in which no handle
was closed twice: `OnRead` returns, after it has executed the next command of the client
or none, and the service goes on if and only if that command has an outcome on the
abstract cache. -/
theorem uv_read_returns {uv : Libuv} (works : ∀ log, uv.asyncInit log = 0) {passes : Nat}
    (enough : connectionInputBufferSize ≤ passes) {m : Int32} (hm : 0 ≤ m)
    {history : List (WorkerEvent × Unit)} {v : UvService}
    (reach : UvService.Reach uv passes m history v) (buffers : UvService.Buffers history)
    (running : ¬ v.worker.Aborted) {i : Nat} {c : UvConnection}
    (hc : v.worker.conns[i]? = some c) (reading : c.reading = true)
    (live : c.deleted = false) {requests : List Request} (wellFormed : ∀ q ∈ requests, q.WellFormed)
    (r : Bytes) (later : List Bytes)
    (reads : ∀ r' ∈ UvService.readsOf history i ++ r :: later,
      r' ≠ [] ∧ r'.length ≤ connectionInputBufferSize)
    (cut : OneCommandPerRead requests (UvService.readsOf history i ++ r :: later)) :
    ∃ d calls, c.step uv passes (.readData r) = some (d, ()) ∧
      d.session.executed = c.session.executed ++ calls ∧ calls.length ≤ 1 ∧
      d.session.executed <+: requests.map Request.call ∧
      ((v.step uv passes (.callback i (.readData r))).isSome ↔
        (PartialRun.run Cache.serve v.store.cache calls).isSome) := by
  obtain ⟨order, hserves⟩ := UvService.Reach.serves reach
  have hvalid := (Store.serve_cache hm hserves.legal).1
  have hcut := (oneCommandPerRead_iff fun r' hr' => (reads r' hr').1).mp cut
  have hkeeps := UvService.Reach.keepsUp (i := i) works wellFormed reads hcut reach buffers
  have honce : ¬ c.ClosedTwice := fun htwice => running ⟨c, List.mem_of_getElem? hc, htwice⟩
  obtain ⟨d, calls, hstep, hone, hexecuted, hpre⟩ := (hkeeps.2 _ rfl c hc).read_returns works enough
    (fun r' hr' => (reads r' (List.mem_append_right _ hr')).1)
    (reads r (List.mem_append_right _ List.mem_cons_self)).2 honce reading live
  refine ⟨d, calls, hstep, hexecuted, hone, hexecuted ▸ hpre, ?_⟩
  rw [UvService.step_read running hc hstep hexecuted, ← hvalid.serve_run calls, Option.isSome_map]

def twoClients : List WorkerEvent :=
  [.connectionOpen (List.replicate connectionInputBufferSize 0) false 0 0,
    .connectionOpen (List.replicate connectionInputBufferSize 0) true 0 0,
    .callback 0 (.readData (text "set k 0 0 1\r")), .callback 1 (.readData (text "set k 0 0 1\r\nw\r\n")),
    .callback 0 (.readData (text "\nv\r\n")), .callback 1 (.readData (text "gets k\r\n")),
    .callback 1 (.executionDone 0), .callback 0 (.executionDone 0),
    .callback 0 (.readData (text "get k\r\n"))]

/-- Whether the buffer of a new connection has its size. -/
def WorkerEvent.sized : WorkerEvent → Bool
  | .connectionOpen memory _ _ _ => memory.length == connectionInputBufferSize
  | _ => true

theorem UvService.buffers_of_calls {history : List (WorkerEvent × Unit)} {events : List WorkerEvent}
    (hcalls : history.map Prod.fst = events) (hsized : events.all WorkerEvent.sized = true) :
    UvService.Buffers history := by
  intro memory negative accept readStart r hmem
  have hevent : WorkerEvent.connectionOpen memory negative accept readStart ∈ events := by
    rw [← hcalls]
    exact List.mem_map.mpr ⟨_, hmem, rfl⟩
  have hlength := List.all_eq_true.mp hsized _ hevent
  exact beq_iff_eq.mp hlength

/-- The second client breaks off with an error. -/
theorem uv_client_served_two :
    ∃ history v, UvService.Reach .working 8 100 history v ∧ history.map Prod.fst = twoClients ∧
      part v.written 0 = [.result (text "STORED\r\n")] ∧
      part v.results 0 = [text "VALUE k 0 1\r\nv\r\nEND\r\n"] ∧
      ∃ (order : List (Nat × (Command × Bytes) × Bytes)) (early late : List Bytes),
        PartialRun.Reach Cache.serve (Cache.fresh 100) (order.map Prod.snd) v.store.cache ∧
        v.Ordered order ∧
        (part order 0).map Prod.fst = [Request.put (text "set") .set (text "k") 0 0 (text "v"),
          Request.get [text "k"]].map Request.call ∧
        (part order 0).map (fun e => taskResult e.2) = early ++ late ∧
        part v.written 0 = early.map .result ∧ part v.results 0 = late := by
  have hcheck : ((PartialRun.run (UvService.step .working 8) (UvService.started 100) twoClients).map
      fun r => decide (r.1.worker.conns[0]?.isSome = true ∧
        part r.1.written 0 = [.result (text "STORED\r\n")] ∧
        part r.1.results 0 = [text "VALUE k 0 1\r\nv\r\nEND\r\n"] ∧
        UvService.readsOf r.2 0 =
          [text "set k 0 0 1\r", text "\nv\r\n", text "get k\r\n"])) = some true := by decide
  obtain ⟨⟨v, history⟩, hrun, hend⟩ := Option.map_eq_some_iff.mp hcheck
  obtain ⟨hconn, hwritten, hresults, hreads⟩ := of_decide_eq_true hend
  obtain ⟨c, hc⟩ := Option.isSome_iff_exists.mp hconn
  have hcalls := PartialRun.run_calls hrun
  have hbuffers := UvService.buffers_of_calls hcalls (by simp [twoClients, WorkerEvent.sized])
  have reach := PartialRun.run_reach hrun
  refine ⟨history, v, reach, hcalls, hwritten, hresults, ?_⟩
  refine uv_client_served (fun _ => rfl) (by decide) reach hbuffers hc (by decide) ?_ ?_
  · rw [hreads]
    decide
  · rw [hreads]
    exact ⟨[[text "set k 0 0 1\r", text "\nv\r\n"], [text "get k\r\n"]], rfl, by decide⟩

/-- The second read of the first client, in the middle of its command. -/
theorem uv_read_returns_cut_set :
    ∃ history v c, UvService.Reach .working connectionInputBufferSize 100 history v ∧
      history.map Prod.fst = twoClients.take 4 ∧ v.worker.conns[0]? = some c ∧
      ∃ d calls, c.step .working connectionInputBufferSize (.readData (text "\nv\r\n")) =
          some (d, ()) ∧
        d.session.executed = c.session.executed ++ calls ∧ calls.length ≤ 1 ∧
        d.session.executed <+:
          [Request.put (text "set") .set (text "k") 0 0 (text "v")].map Request.call ∧
        ((v.step .working connectionInputBufferSize
            (.callback 0 (.readData (text "\nv\r\n")))).isSome ↔
          (PartialRun.run Cache.serve v.store.cache calls).isSome) := by
  have hcheck : ((PartialRun.run (UvService.step .working connectionInputBufferSize)
      (UvService.started 100) (twoClients.take 4)).map fun r =>
        decide ((r.1.worker.conns[0]?.any fun c => c.reading && !c.deleted) = true ∧
          ¬ r.1.worker.Aborted ∧ UvService.readsOf r.2 0 = [text "set k 0 0 1\r"])) = some true := by decide
  obtain ⟨⟨v, history⟩, hrun, hend⟩ := Option.map_eq_some_iff.mp hcheck
  obtain ⟨hconn, hrunning, hreads⟩ := of_decide_eq_true hend
  obtain ⟨c, hc, hopen⟩ := (Option.any_eq_true _ _).mp hconn
  rw [Bool.and_eq_true, Bool.not_eq_true'] at hopen
  have hcalls := PartialRun.run_calls hrun
  have hbuffers := UvService.buffers_of_calls hcalls (by simp [twoClients, WorkerEvent.sized])
  have reach := PartialRun.run_reach hrun
  refine ⟨history, v, c, reach, hcalls, hc, ?_⟩
  refine uv_read_returns (fun _ => rfl) (Nat.le_refl _) (by decide) reach hbuffers hrunning hc
    hopen.1 hopen.2 (by decide) _ [] ?_ ?_
  · rw [hreads]
    decide
  · rw [hreads]
    exact ⟨[[text "set k 0 0 1\r", text "\nv\r\n"]], rfl, by decide⟩

end Afina
