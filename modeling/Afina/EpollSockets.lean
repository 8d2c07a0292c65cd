import Afina.HandlerCore
import Afina.Lib.PartialRun
import Mathlib.Data.Finset.Basic

namespace Afina

/-- What the calls made for an event of the server's socket return: `accept`,
whether its error is `EAGAIN` or `EWOULDBLOCK`, whether both calls of `fcntl`
succeed, and whether epoll takes the new descriptor. -/
structure AcceptCalls where
  accepted : Int
  again : Bool
  getFlags : Bool
  setFlags : Bool
  added : Bool
deriving DecidableEq, Repr

/-- An event that `epoll_wait` returns: its descriptor, whether `EPOLLERR` or
`EPOLLHUP` is set, and for a client whether `EPOLLIN` is, with all that
`ConnectionWork` then gets to read. -/
inductive EpollEvent
  | server (errHup : Bool) (calls : AcceptCalls)
  | client (fd : Int) (errHup epollIn : Bool) (negative : Bool) (inputs : List Input)
deriving DecidableEq, Repr

/-- The non-blocking `Worker`. Not in the source: the client descriptors that it
has accepted and not closed, those that its epoll instance has, and the
exception that ended `OnRun`. -/
structure EpollWorker where
  serverSocket : Int
  serverOpen : Bool
  connectionSockets : Finset Int
  opened : Finset Int
  registered : Finset Int
  failed : Option Bytes

namespace EpollWorker

variable {backend : Backend}

def started (serverSocket : Int) : EpollWorker := ⟨serverSocket, true, ∅, ∅, ∅, none⟩

/-- `close`; a closed descriptor leaves the epoll instance by itself. -/
def close (w : EpollWorker) (fd : Int) : EpollWorker :=
  { w with opened := w.opened.erase fd, registered := w.registered.erase fd }

def fail (w : EpollWorker) (what : Bytes) : EpollWorker := { w with failed := some what }

/-- `make_socket_non_blocking`, with the exception it throws. -/
def makeSocketNonBlocking (calls : AcceptCalls) (fd : Int) : Option Bytes :=
  if fd < 0 ∨ calls.getFlags = false then
    some (text "Failed to call fcntl to get socket flags")
  else if calls.setFlags = false then some (text "Failed to call fcntl to set socket flags")
  else none

/-- The rest of the branch behind `accept`. -/
def addClient (w : EpollWorker) (calls : AcceptCalls) (fd : Int) : EpollWorker :=
  match makeSocketNonBlocking calls fd with
  | some what => w.fail what
  | none =>
    let w := { w with connectionSockets := insert fd w.connectionSockets }
    if calls.added then { w with registered := insert fd w.registered }
    else w.fail (text "Failed to add an event for client socket.")

/-- Descriptors that the kernel may give to a new connection. -/
def Unused (w : EpollWorker) (fd : Int) : Prop := 0 ≤ fd ∧ fd ∉ w.opened ∧ fd ≠ w.serverSocket

instance (w : EpollWorker) (fd : Int) : Decidable (w.Unused fd) :=
  inferInstanceAs (Decidable (_ ∧ _ ∧ _))

def onServerEvent (w : EpollWorker) (errHup : Bool) (calls : AcceptCalls) : Option EpollWorker :=
  if errHup then some ({ w with serverOpen := false }.fail (text "Server stopped"))
  else if calls.accepted = -1 then
    if calls.again then some w else some ({ w with serverOpen := false }.addClient calls (-1))
  else if w.Unused calls.accepted then
    some ({ w with opened := insert calls.accepted w.opened }.addClient calls calls.accepted)
  else none

/-- `ConnectionWork`, on a socket that it gets these inputs from. -/
def work (backend : Backend) (negative : Bool) (inputs : List Input) : Option Handler :=
  (PartialRun.run (connectionWork backend) (Handler.fresh negative) inputs).map Prod.fst

/-- There is no next state while `ConnectionWork` goes on reading. -/
def onClientEvent (backend : Backend) (w : EpollWorker) (fd : Int) (errHup epollIn : Bool)
    (negative : Bool) (inputs : List Input) : Option EpollWorker :=
  if fd ∈ w.connectionSockets ∧ errHup = true then
    let w := { w with connectionSockets := w.connectionSockets.erase fd }
    if fd ∈ w.registered then some (w.close fd)
    else some (w.fail (text "Failed delete current_socket from epoll"))
  else if fd ∈ w.connectionSockets ∧ epollIn = true then do
    let h ← work backend negative inputs
    match h.phase with
    | .returned => pure (w.close fd)
    | .threw what => pure ((if .closed ∈ h.log then w.close fd else w).fail what)
    | _ => none
  else some (w.fail (text "Unknown event"))

/-- One event of the loop of `OnRun`; clients' events are of registered
descriptors, and an exception ends the loop. -/
def step (backend : Backend) (w : EpollWorker) (e : EpollEvent) : Option (EpollWorker × Unit) :=
  if w.failed.isSome then none
  else
    match e with
    | .server errHup calls => (w.onServerEvent errHup calls).map (·, ())
    | .client fd errHup epollIn negative inputs =>
      if fd ∈ w.registered then
        (w.onClientEvent backend fd errHup epollIn negative inputs).map (·, ())
      else none

abbrev Reach (backend : Backend) (serverSocket : Int) :
    List (EpollEvent × Unit) → EpollWorker → Prop :=
  PartialRun.Reach (step backend) (started serverSocket)

/-- `Stop` closes all of `connection_sockets`. -/
def stop (w : EpollWorker) : EpollWorker :=
  { w with
    opened := w.opened \ w.connectionSockets
    registered := w.registered \ w.connectionSockets }

/-- `connection_sockets` are the descriptors that are open and registered, and
`Stop` closes every open one and no other. -/
structure Exact (w : EpollWorker) : Prop where
  sockets : ∀ fd, fd ∈ w.connectionSockets ↔ fd ∈ w.opened ∧ fd ∈ w.registered
  stops : w.stop.opened = ∅ ∧ w.connectionSockets ⊆ w.opened

/-- The events that the bookkeeping stands: `fcntl` and epoll take an accepted
descriptor, and where `EPOLLIN` comes without an error `ConnectionWork` neither
returns nor closes the socket. -/
def Stands (backend : Backend) (w : EpollWorker) : EpollEvent → Prop
  | .server errHup calls => w.failed = none → errHup = false → calls.accepted ≠ -1 →
      w.Unused calls.accepted →
      calls.getFlags = true ∧ calls.setFlags = true ∧ calls.added = true
  | .client fd errHup epollIn negative inputs => w.failed = none → fd ∈ w.registered →
      errHup = false → epollIn = true → ∀ h, work backend negative inputs = some h →
      h.phase ≠ .returned ∧ (h.phase.ended = true → .closed ∉ h.log)

/-- What holds whatever happens: only open descriptors are registered. -/
def Sane (w : EpollWorker) : Prop := w.registered ⊆ w.opened

theorem exact_iff (w : EpollWorker) (h : w.Sane) :
    w.Exact ↔ w.connectionSockets = w.opened ∧ w.registered = w.opened := by
  constructor
  · intro he
    have hall : w.connectionSockets = w.opened := by
      refine Finset.Subset.antisymm he.stops.2 ?_
      exact Finset.sdiff_eq_empty_iff_subset.mp he.stops.1
    refine ⟨hall, Finset.Subset.antisymm h fun fd hfd => ?_⟩
    rw [← hall] at hfd
    exact ((he.sockets fd).mp hfd).2
  · rintro ⟨hsockets, hregistered⟩
    refine ⟨fun fd => by rw [hsockets, hregistered, and_self], ?_, hsockets.le⟩
    show w.opened \ w.connectionSockets = ∅
    rw [hsockets, Finset.sdiff_self]

theorem addClient_eq (w : EpollWorker) (calls : AcceptCalls) {fd : Int} (h : 0 ≤ fd)
    (hget : calls.getFlags = true) (hset : calls.setFlags = true) (hadd : calls.added = true) :
    w.addClient calls fd = { w with
      connectionSockets := insert fd w.connectionSockets
      registered := insert fd w.registered } := by
  have hvalid : ¬ (fd < 0 ∨ calls.getFlags = false) := by simp [hget, h]
  simp [addClient, makeSocketNonBlocking, hvalid, hset, hadd]

/-- A descriptor that `fcntl` or epoll refuses is in no more than one of the sets
that it should be in. -/
theorem addClient_refused (w : EpollWorker) (calls : AcceptCalls) (fd : Int)
    (h : fd < 0 ∨ ¬ (calls.getFlags = true ∧ calls.setFlags = true ∧ calls.added = true)) :
    (w.addClient calls fd).opened = w.opened ∧
      (w.addClient calls fd).registered = w.registered ∧
      ((w.addClient calls fd).connectionSockets = w.connectionSockets ∨
        (0 ≤ fd ∧ (w.addClient calls fd).connectionSockets = insert fd w.connectionSockets)) := by
  unfold addClient makeSocketNonBlocking
  split
  next => exact ⟨rfl, rfl, Or.inl rfl⟩
  next hflags =>
    split at hflags
    next => cases hflags
    next hvalid =>
      split at hflags
      next => cases hflags
      next hset =>
        rw [not_or] at hvalid
        dsimp only
        split
        next hadd =>
          have hget : calls.getFlags = true := by simpa using hvalid.2
          exact absurd ⟨hget, by simpa using hset, hadd⟩ (h.resolve_left hvalid.1)
        next => exact ⟨rfl, rfl, Or.inr ⟨not_lt.mp hvalid.1, rfl⟩⟩

/-- What one event can do to the three sets. -/
inductive Moves (backend : Backend) (w w' : EpollWorker) : EpollEvent → Prop
  | kept {e : EpollEvent} (sockets : w'.connectionSockets = w.connectionSockets)
      (opened : w'.opened = w.opened) (registered : w'.registered = w.registered) :
      Moves backend w w' e
  | accepted {calls : AcceptCalls} (unused : w.Unused calls.accepted)
      (sockets : w'.connectionSockets = insert calls.accepted w.connectionSockets)
      (opened : w'.opened = insert calls.accepted w.opened)
      (registered : w'.registered = insert calls.accepted w.registered) :
      Moves backend w w' (.server false calls)
  | refused {calls : AcceptCalls} (unused : w.Unused calls.accepted)
      (failed : ¬ (calls.getFlags = true ∧ calls.setFlags = true ∧ calls.added = true))
      (opened : w'.opened = insert calls.accepted w.opened)
      (registered : w'.registered = w.registered) :
      Moves backend w w' (.server false calls)
  | dropped {fd : Int} {epollIn negative : Bool} {inputs : List Input}
      (sockets : w'.connectionSockets = w.connectionSockets.erase fd)
      (opened : w'.opened = w.opened.erase fd)
      (registered : w'.registered = w.registered.erase fd) :
      Moves backend w w' (.client fd true epollIn negative inputs)
  | closed {fd : Int} {errHup negative : Bool} {inputs : List Input} {h : Handler}
      (member : fd ∈ w.connectionSockets) (registered : fd ∈ w.registered)
      (work : work backend negative inputs = some h)
      (ended : h.phase = .returned ∨ (h.phase.ended = true ∧ .closed ∈ h.log))
      (sockets : w'.connectionSockets = w.connectionSockets)
      (opened : w'.opened = w.opened.erase fd)
      (epoll : w'.registered = w.registered.erase fd) (quiet : errHup = false) :
      Moves backend w w' (.client fd errHup true negative inputs)

theorem moves_of_server {w w' : EpollWorker} {errHup : Bool} {calls : AcceptCalls}
    (h : w.onServerEvent errHup calls = some w') : Moves backend w w' (.server errHup calls) := by
  unfold onServerEvent at h
  split at h
  next => cases h; exact .kept rfl rfl rfl
  next herr =>
    obtain rfl : errHup = false := Bool.eq_false_iff.mpr herr
    split at h
    next =>
      split at h
      next => cases h; exact .kept rfl rfl rfl
      next =>
        cases h
        obtain ⟨hopened, hregistered, hsockets | ⟨hneg, _⟩⟩ :=
          addClient_refused { w with serverOpen := false } calls (-1) (Or.inl (by decide))
        · exact .kept hsockets hopened hregistered
        · exact absurd hneg (by decide)
    next =>
      split at h
      next hunused =>
        cases h
        by_cases hall : calls.getFlags = true ∧ calls.setFlags = true ∧ calls.added = true
        · rw [addClient_eq _ calls hunused.1 hall.1 hall.2.1 hall.2.2]
          exact .accepted hunused rfl rfl rfl
        · obtain ⟨hopened, hregistered, _⟩ := addClient_refused
            { w with opened := insert calls.accepted w.opened } calls calls.accepted (Or.inr hall)
          exact .refused hunused hall hopened hregistered
      next => cases h

theorem moves_of_client {w w' : EpollWorker} {fd : Int} {errHup epollIn negative : Bool}
    {inputs : List Input} (hfd : fd ∈ w.registered)
    (h : w.onClientEvent backend fd errHup epollIn negative inputs = some w') :
    Moves backend w w' (.client fd errHup epollIn negative inputs) := by
  unfold onClientEvent at h
  split at h
  next hdrop =>
    obtain ⟨_, rfl⟩ := hdrop
    rw [if_pos hfd] at h
    cases h
    exact .dropped rfl rfl rfl
  next hkeep =>
    split at h
    next hin =>
      obtain ⟨hmem, rfl⟩ := hin
      have hquiet : errHup = false := by
        cases errHup with
        | false => rfl
        | true => exact absurd ⟨hmem, rfl⟩ hkeep
      obtain ⟨t, ht, h⟩ := Option.bind_eq_some_iff.mp h
      split at h
      next hphase =>
        cases h
        exact .closed hmem hfd ht (Or.inl hphase) rfl rfl rfl hquiet
      next what hphase =>
        cases h
        split
        next hclosed =>
          exact .closed hmem hfd ht (Or.inr ⟨by rw [hphase]; rfl, hclosed⟩) rfl rfl rfl hquiet
        next => exact .kept rfl rfl rfl
      next => cases h
    next => cases h; exact .kept rfl rfl rfl

theorem moves_of_step {w w' : EpollWorker} {e : EpollEvent} {r : Unit}
    (h : w.step backend e = some (w', r)) : w.failed = none ∧ Moves backend w w' e := by
  unfold step at h
  split at h
  next => cases h
  next hrun =>
    refine ⟨by simpa using hrun, ?_⟩
    split at h
    next =>
      obtain ⟨v, hv, he⟩ := Option.map_eq_some_iff.mp h
      cases he
      exact moves_of_server hv
    next =>
      split at h
      next hfd =>
        obtain ⟨v, hv, he⟩ := Option.map_eq_some_iff.mp h
        cases he
        exact moves_of_client hfd hv
      next => cases h

theorem Sane.step {w w' : EpollWorker} {e : EpollEvent} {r : Unit} (h : w.Sane)
    (hs : w.step backend e = some (w', r)) : w'.Sane := by
  unfold Sane at h ⊢
  cases (moves_of_step hs).2 with
  | kept sockets opened registered => rw [opened, registered]; exact h
  | accepted unused sockets opened registered =>
    rw [opened, registered]
    exact Finset.insert_subset_insert _ h
  | refused unused failed opened registered =>
    rw [opened, registered]
    exact h.trans (Finset.subset_insert _ _)
  | dropped sockets opened registered =>
    rw [opened, registered]
    exact Finset.erase_subset_erase _ h
  | closed member fd work ended sockets opened registered quiet =>
    rw [opened, registered]
    exact Finset.erase_subset_erase _ h

theorem exact_step {w w' : EpollWorker} {e : EpollEvent} {r : Unit} (hsane : w.Sane)
    (h : w.Exact) (hstands : w.Stands backend e) (hs : w.step backend e = some (w', r)) :
    w'.Exact := by
  rw [exact_iff w' (hsane.step hs)]
  obtain ⟨hsockets, hregistered⟩ := (exact_iff w hsane).mp h
  obtain ⟨hrun, hmoves⟩ := moves_of_step hs
  cases hmoves with
  | kept sockets opened registered =>
    rw [sockets, opened, registered]
    exact ⟨hsockets, hregistered⟩
  | accepted unused sockets opened registered =>
    rw [sockets, opened, registered, hsockets, hregistered]
    exact ⟨rfl, rfl⟩
  | @refused calls unused failed opened registered =>
    have hvalid : calls.accepted ≠ -1 := by
      have hpos := unused.1
      omega
    exact absurd (hstands hrun rfl hvalid unused) failed
  | dropped sockets opened registered =>
    rw [sockets, opened, registered, hsockets, hregistered]
    exact ⟨rfl, rfl⟩
  | closed member fd work ended sockets opened registered quiet =>
    obtain ⟨hphase, hlog⟩ := hstands hrun fd quiet rfl _ work
    rcases ended with hreturned | ⟨hended, hclosed⟩
    · exact absurd hreturned hphase
    · exact absurd hclosed (hlog hended)

theorem server_stands {w : EpollWorker} {errHup : Bool} {calls : AcceptCalls} (hsane : w.Sane)
    (h : w.Exact)
    (hnext : ∀ w' r, w.step backend (.server errHup calls) = some (w', r) → w'.Exact) :
    w.Stands backend (.server errHup calls) := by
  intro hrun herr hvalid hunused
  subst herr
  by_contra hfailed
  obtain ⟨w', hw'⟩ : ∃ w', w' = { w with
    opened := insert calls.accepted w.opened }.addClient calls calls.accepted := ⟨_, rfl⟩
  have hs : w.step backend (.server false calls) = some (w', ()) := by
    simp [step, hrun, onServerEvent, hvalid, hunused, hw']
  obtain ⟨hopened, hregistered, _⟩ := addClient_refused
    { w with opened := insert calls.accepted w.opened } calls calls.accepted (Or.inr hfailed)
  rw [← hw'] at hopened hregistered
  have hafter := ((exact_iff w' (hsane.step hs)).mp (hnext w' () hs)).2
  have hbefore := ((exact_iff w hsane).mp h).2
  rw [hopened, hregistered] at hafter
  have hmem : calls.accepted ∈ w.registered := by
    rw [hafter]
    exact Finset.mem_insert_self _ _
  rw [hbefore] at hmem
  exact hunused.2.1 hmem

theorem client_stands {w : EpollWorker} {fd : Int} {errHup epollIn negative : Bool}
    {inputs : List Input} (hsane : w.Sane) (h : w.Exact)
    (hnext : ∀ w' r,
      w.step backend (.client fd errHup epollIn negative inputs) = some (w', r) → w'.Exact) :
    w.Stands backend (.client fd errHup epollIn negative inputs) := by
  intro hrun hfd herr hin t ht
  subst herr hin
  obtain ⟨hsockets, hregistered⟩ := (exact_iff w hsane).mp h
  have hmem : fd ∈ w.connectionSockets := by
    rw [hsockets, ← hregistered]
    exact hfd
  -- a next state in which the descriptor is closed still has it in the set
  have hclosed : ∀ w', w.step backend (.client fd false true negative inputs) = some (w', ()) →
      w'.connectionSockets = w.connectionSockets → fd ∉ w'.opened → False := by
    intro w' hs hsame hnot
    have hafter := ((exact_iff w' (hsane.step hs)).mp (hnext w' () hs)).1
    rw [← hafter, hsame] at hnot
    exact hnot hmem
  constructor
  · intro hphase
    refine hclosed (w.close fd) ?_ rfl (Finset.notMem_erase _ _)
    simp [step, hrun, hfd, onClientEvent, hmem, ht, hphase]
  · intro hended hlog
    cases hphase : t.phase with
    | outer => rw [hphase] at hended; cases hended
    | inner cmd bodySize => rw [hphase] at hended; cases hended
    | returned =>
      refine hclosed (w.close fd) ?_ rfl (Finset.notMem_erase _ _)
      simp [step, hrun, hfd, onClientEvent, hmem, ht, hphase]
    | threw what =>
      refine hclosed ((w.close fd).fail what) ?_ rfl (Finset.notMem_erase _ _)
      simp [step, hrun, hfd, onClientEvent, hmem, ht, hphase, hlog]

theorem stands_of_step {w : EpollWorker} {e : EpollEvent} (hsane : w.Sane) (h : w.Exact)
    (hnext : ∀ w' r, w.step backend e = some (w', r) → w'.Exact) : w.Stands backend e := by
  cases e with
  | server errHup calls => exact server_stands hsane h hnext
  | client fd errHup epollIn negative inputs => exact client_stands hsane h hnext

theorem started_exact (serverSocket : Int) : (started serverSocket).Exact :=
  (exact_iff _ (Finset.Subset.refl _)).mpr ⟨rfl, rfl⟩

end EpollWorker

/-- In a run of a worker `connection_sockets` is exact after every event, if and
only if each event is one that the bookkeeping stands. -/
theorem sockets_exact_iff (backend : Backend) (serverSocket : Int) (events : List EpollEvent) :
    (∀ history w, EpollWorker.Reach backend serverSocket history w →
        history.map Prod.fst <+: events → w.Exact) ↔
      ∀ history w e, EpollWorker.Reach backend serverSocket history w →
        history.map Prod.fst ++ [e] <+: events → w.Stands backend e :=
  PartialRun.holds_along_iff (I := EpollWorker.Sane) (Finset.Subset.refl _)
    (fun _ _ _ _ h hs => h.step hs) (EpollWorker.started_exact serverSocket)
    (fun _ _ hsane h => ⟨EpollWorker.stands_of_step hsane h,
      fun hstands _ _ hs => EpollWorker.exact_step hsane h hstands hs⟩) events

/-- A client sends one command and the next `read` finds nothing: the descriptor
is closed and stays in `connection_sockets`, for `Stop` to close it again. -/
theorem served_client_stays :
    ∃ history w, EpollWorker.Reach ⟨fun _ => some [], fun _ => 1⟩ 3 history w ∧
      history.map Prod.fst = [.server false ⟨5, false, true, true, true⟩,
        .client 5 false true false [.read (text "get a\r\n"), .readFailed]] ∧
      (5 ∈ w.connectionSockets ∧ 5 ∉ w.opened ∧ w.failed = none) ∧ ¬ w.Exact := by
  obtain ⟨history, w, reach, hcalls, hend⟩ := PartialRun.reach_of_check
    (EpollWorker.step ⟨fun _ => some [], fun _ => 1⟩) (.started 3)
    [.server false ⟨5, false, true, true, true⟩,
      .client 5 false true false [.read (text "get a\r\n"), .readFailed]]
    (fun w => 5 ∈ w.connectionSockets ∧ 5 ∉ w.opened ∧ w.failed = none) (by decide)
  refine ⟨history, w, reach, hcalls, hend, fun hexact => ?_⟩
  exact hend.2.1 (hexact.stops.2 hend.1)

end Afina
