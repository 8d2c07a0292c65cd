import Afina.ConnectionPasses

namespace Afina

namespace Session

variable {uv : Libuv}

def fresh (memory : Bytes) (negative : Bool) : Session := ⟨Connection.fresh memory negative, []⟩

/-- All that was received is consumed, byte by byte, and these calls are made. -/
structure Sync (s : Session) (n : Nat) (calls : List (Command × Bytes)) : Prop where
  parsed : s.conn.inputParsed = s.conn.inputUsed
  buffer : s.conn.input.length = connectionInputBufferSize
  place : s.conn.origin + s.conn.inputParsed = n
  consumed : s.consumed = List.range n
  executed : s.executed = calls

theorem fresh_sync {memory : Bytes} (h : memory.length = connectionInputBufferSize)
    (negative : Bool) : (fresh memory negative).Sync 0 [] :=
  ⟨rfl, h, rfl, rfl, rfl⟩

theorem fresh_ready (memory : Bytes) (negative : Bool) : (fresh memory negative).conn.Ready :=
  ⟨rfl, ⟨negative, rfl⟩, rfl, rfl⟩

/-- The session in which the loop of `OnRead` finds new data, if the old was all
consumed. -/
def loaded (s : Session) (data : Bytes) : Session :=
  { s with conn := { s.conn with
    input := overwrite s.conn.input 0 data
    inputParsed := 0
    inputUsed := data.length
    origin := s.conn.origin + s.conn.inputParsed } }

theorem loaded_buffer (s : Session) (data : Bytes) :
    (s.loaded data).conn.input.take (s.loaded data).conn.inputUsed = data := by
  simp [loaded, overwrite]

theorem loaded_unread (s : Session) (data : Bytes) : (s.loaded data).conn.unread = data := by
  rw [Connection.unread, loaded_buffer]
  rfl

theorem loaded_length {s : Session} {n : Nat} {calls : List (Command × Bytes)} (h : s.Sync n calls)
    {data : Bytes} (hd : data.length ≤ connectionInputBufferSize) :
    (s.loaded data).conn.input.length = connectionInputBufferSize := by
  have := h.buffer
  simp only [loaded, overwrite, List.take_zero, List.nil_append, List.length_append,
    List.length_drop]
  omega

theorem loaded_inside {q : Request} {rest : Bytes} {s : Session} (h : s.conn.Inside q rest)
    (data : Bytes) : (s.loaded data).conn.Inside q rest := by
  cases h with
  | header state split more scanned incomplete empty =>
    exact .header state split more scanned incomplete empty
  | body state split more size cmd => exact .body state split more size cmd
  | trailerCR state body cmd => exact .trailerCR state body cmd
  | trailerLF state body cmd => exact .trailerLF state body cmd

theorem step_loaded {s : Session} {n : Nat} {calls : List (Command × Bytes)} (h : s.Sync n calls)
    (hopen : s.conn.state ≠ .sClosed) {data : Bytes}
    (hd : data.length ≤ connectionInputBufferSize) (passes : Nat) :
    step uv passes s data =
      match readLoop uv passes (s.loaded data) with
      | .ended (.normally t) => some (t, ())
      | .ended (.threw t what) =>
        match t.fail uv what with
        | .ended (.normally u) => some (u, ())
        | _ => none
      | _ => none := by
  have halloc : s.conn.onAllocate = some { s.conn with
      inputParsed := 0, inputUsed := 0, origin := s.conn.origin + s.conn.inputParsed } := by
    simp [Connection.onAllocate, h.parsed, overwrite]
  have hneg : ¬ ((data.length : Int) < 0) := by omega
  have hload : (⟨{ s.conn with
      input := overwrite s.conn.input 0 data, inputParsed := 0, inputUsed := 0 + data.length,
      origin := s.conn.origin + s.conn.inputParsed }, s.log⟩ : Session) = s.loaded data := by
    simp [loaded]
  simp only [step, halloc, Option.bind_eq_bind, Option.bind_some, Nat.sub_zero, hd, if_true, onRead,
    hneg, if_false, hopen, Int.toNat_natCast, hload]
  cases hloop : readLoop uv passes (s.loaded data) with
  | ended e =>
    cases e with
    | normally t => rfl
    | threw t what => rfl
  | undefined => rfl
  | running => rfl

theorem Sync.of_moved {s t : Session} {n : Nat} {calls extra : List (Command × Bytes)}
    (h : s.Sync n calls) {data : Bytes} (hd : data.length ≤ connectionInputBufferSize)
    (hmoved : Moved (s.loaded data) t data.length extra) :
    t.Sync (n + data.length) (calls ++ extra) := by
  have hplace := h.place
  refine ⟨?_, ?_, ?_, ?_, ?_⟩
  · rw [hmoved.parsed, hmoved.used]
    exact Nat.zero_add _
  · rw [hmoved.input]
    exact loaded_length h hd
  · rw [hmoved.origin, hmoved.parsed]
    simp only [loaded]
    omega
  · have hold : (s.loaded data).consumed = List.range n := h.consumed
    have hfrom : (s.loaded data).conn.origin + (s.loaded data).conn.inputParsed = 0 + n := by
      simp only [loaded]
      omega
    rw [hmoved.consumed, hold, hfrom, List.range_eq_range', List.range'_append_1,
      List.range_eq_range']
  · rw [hmoved.executed]
    exact congrArg (· ++ extra) h.executed

/-- A read that stays inside a command: it returns, and the connection goes on
by exactly its bytes. -/
theorem step_inside {q : Request} (hq : q.WellFormed) (hu : ∀ log, uv.asyncInit log = 0)
    {s : Session} {n : Nat} {calls : List (Command × Bytes)} (h : s.Sync n calls) {rest : Bytes}
    (hin : s.conn.Inside q rest) {data rest' : Bytes} (hsplit : rest = data ++ rest')
    (hd : data.length ≤ connectionInputBufferSize) :
    ∃ t, (∀ passes, connectionInputBufferSize ≤ passes → step uv passes s data = some (t, ())) ∧
      (∀ passes u r, step uv passes s data = some (u, r) → u = t) ∧
      ((rest' ≠ [] ∧ t.Sync (n + data.length) calls ∧ t.conn.Inside q rest') ∨
        (rest' = [] ∧ t.Sync (n + data.length) (calls ++ [q.call]) ∧ t.conn.Ready)) := by
  obtain ⟨k, t, hk, hdrives, hend⟩ := drives_inside hq hu (loaded_inside hin data)
    (loaded_unread s data) (fun _ => Or.inl rfl)
    (Nat.lt_of_le_of_lt hd (by decide)) (by rw [loaded_length h hd]; exact hd)
    (Or.inl ⟨rest', hsplit.symm⟩)
  obtain ⟨hidle, hafter⟩ : ¬ t.conn.inputParsed < t.conn.inputUsed ∧
      ((rest' ≠ [] ∧ t.Sync (n + data.length) calls ∧ t.conn.Inside q rest') ∨
        (rest' = [] ∧ t.Sync (n + data.length) (calls ++ [q.call]) ∧ t.conn.Ready)) := by
    rcases hend with ⟨rest'', hne, heq, hmoved, hinside⟩ | ⟨w', heq, hmoved, hready⟩
    · have hrest : rest' = rest'' := List.append_cancel_left (hsplit.symm.trans heq)
      have hsync := h.of_moved hd hmoved
      rw [List.append_nil] at hsync
      subst hrest
      exact ⟨hsync.parsed.not_lt, Or.inl ⟨hne, hsync, hinside⟩⟩
    · have hlen := congrArg List.length heq
      rw [hsplit, List.length_append, List.length_append] at hlen
      have hrest : rest' = [] := List.eq_nil_of_length_eq_zero (by omega)
      rw [hsplit, hrest, List.append_nil] at hmoved
      have hsync := h.of_moved hd hmoved
      exact ⟨hsync.parsed.not_lt, Or.inr ⟨hrest, hsync, hready⟩⟩
  have hresult : ∀ passes, k ≤ passes → step uv passes s data = some (t, ()) := by
    intro passes hp
    obtain ⟨m, rfl⟩ := Nat.exists_eq_add_of_le hp
    rw [step_loaded h hin.not_closed hd, hdrives.reaches, readLoop_idle hidle]
  refine ⟨t, fun passes hp => hresult passes (hk.trans (hd.trans hp)), ?_, hafter⟩
  intro passes u r hu'
  by_cases hp : k ≤ passes
  · rw [hresult passes hp] at hu'
    cases hu'
    rfl
  · rw [step_loaded h hin.not_closed hd, hdrives.before passes (by omega)] at hu'
    cases hu'

/-- A read of no bytes between two commands. -/
theorem step_nothing (uv : Libuv) {s : Session} {n : Nat} {calls : List (Command × Bytes)} (h : s.Sync n calls)
    (hready : s.conn.Ready) (passes : Nat) :
    ∃ t, step uv passes s [] = some (t, ()) ∧ t.Sync n calls ∧ t.conn.Ready := by
  have hfits : ([] : Bytes).length ≤ connectionInputBufferSize := Nat.zero_le _
  refine ⟨s.loaded [], ?_, ?_, hready.state, hready.parser, hready.cmd, hready.body⟩
  · rw [step_loaded h (by simp [hready.state]) hfits, readLoop_idle (Nat.lt_irrefl 0)]
  · simpa using h.of_moved hfits (Moved.refl _)

end Session

end Afina
