import Afina.HandlerFraming
import Mathlib.Data.List.SplitLengths

namespace Afina

open Scan

theorem cString_no_zero {buf held : Bytes} (h : cString buf = some held) :
    0 ∉ held ∧ held.length ≤ buf.length := by
  unfold cString at h
  split at h
  next =>
    cases Option.some.inj h
    refine ⟨fun hmem => ?_, (List.takeWhile_prefix _).length_le⟩
    simpa using List.mem_takeWhile_imp hmem
  next => cases h

theorem cString_of_full {data : Bytes} (hz : 0 ∉ data) (hlen : data.length = bufSize) {buf : Bytes}
    (hbuf : buf.length = bufSize) : cString (overwrite buf 0 data) = none := by
  have hover : overwrite buf 0 data = data := by
    simp [overwrite, List.drop_eq_nil_of_le (Nat.le_of_eq (hbuf.trans hlen.symm))]
  rw [hover]
  exact if_neg hz

namespace Handler

variable {server : Server} {backend : Backend}

/-- What is gathered is never a zero, and never so long that the sum in the loop
condition would wrap. -/
structure Plain (h : Handler) : Prop where
  buf : h.buf.length = bufSize
  command : 0 ∉ h.command
  calls : ∀ call ∈ h.executed, 0 ∉ call.2 ∧ call.2.length + 2 < 2 ^ 32

theorem fresh_plain (negative : Bool) : (fresh negative).Plain :=
  ⟨List.length_replicate, by simp [fresh], by simp [fresh, executed]⟩

theorem arguments_length (h : Handler) (bodySize : UInt32) :
    (h.arguments bodySize).length ≤ bodySize.toNat ∧
      (h.arguments bodySize).length ≤ h.command.length := by
  unfold arguments
  split
  next => simp only [List.length_take]; omega
  next => simp

theorem gather_plain (sends : ∀ log, 0 < backend.send log) {h t : Handler} {cmd : Option Command}
    {bodySize : UInt32} (hs : h.gather server backend cmd bodySize = some t) (hp : h.Plain)
    (hwrap : 2 ^ 32 ≤ bodySize.toNat + 2 → h.command.length + 2 < 2 ^ 32) : t.Plain := by
  rcases gather_cases sends hs with ⟨_, rfl⟩ | ⟨_, com, _, rfl⟩
  · exact ⟨hp.buf, hp.command, hp.calls⟩
  · refine ⟨List.length_replicate, by simp, fun call hcall => ?_⟩
    rw [answered_executed, List.mem_append, List.mem_singleton] at hcall
    rcases hcall with hcall | rfl
    · exact hp.calls call hcall
    · refine ⟨fun hmem => hp.command ?_, ?_⟩
      · unfold arguments at hmem
        split at hmem
        next => exact List.mem_of_mem_take hmem
        next => simp at hmem
      · have := arguments_length h bodySize
        dsimp only
        omega

theorem overwrite_length {buf data : Bytes} (hbuf : buf.length = bufSize)
    (hd : data.length ≤ bufSize) : (overwrite buf 0 data).length = bufSize := by
  simp [overwrite]
  omega

/-- What a read appends. -/
theorem Plain.appended {h : Handler} (hp : h.Plain) {buf appended : Bytes}
    (hbuf : buf.length = bufSize) (hstring : cString buf = some appended) :
    0 ∉ h.command ++ appended ∧ appended.length ≤ bufSize := by
  obtain ⟨hzero, hlen⟩ := cString_no_zero hstring
  refine ⟨fun hmem => ?_, by omega⟩
  rcases List.mem_append.mp hmem with hmem | hmem
  · exact hp.command hmem
  · exact hzero hmem

theorem Plain.of_step (sends : ∀ log, 0 < backend.send log) {h t : Handler} {i : Input}
    (ht : h.Tidy) (hp : h.Plain) (hs : h.step server backend i = some (t, ())) : t.Plain := by
  have hfilled : ∀ data, i = .read data → (overwrite h.buf 0 data).length = bufSize := by
    rintro data rfl
    refine overwrite_length hp.buf ?_
    by_contra hlong
    simp [Handler.step, hlong] at hs
  cases moves_of_step sends hs with
  | ended _ => exact hp
  | finished _ _ => exact ⟨hp.buf, hp.command, by rw [executed_epilogue]; exact hp.calls⟩
  | rejected outer string _ =>
    refine ⟨hfilled _ rfl, (hp.appended (hfilled _ rfl) string).1, ?_⟩
    rw [executed_epilogue]
    simpa [executed] using hp.calls
  | waited outer string _ _ =>
    have happended := hp.appended (hfilled _ rfl) string
    exact ⟨List.length_replicate, fun hmem => happended.1 (List.mem_of_mem_drop hmem), hp.calls⟩
  | escaped outer string _ _ _ =>
    have happended := hp.appended (hfilled _ rfl) string
    exact ⟨hfilled _ rfl, fun hmem => happended.1 (List.mem_of_mem_drop hmem), hp.calls⟩
  | began outer string _ _ _ gathers =>
    have happended := hp.appended (hfilled _ rfl) string
    refine gather_plain sends gathers
      ⟨hfilled _ rfl, fun hmem => happended.1 (List.mem_of_mem_drop hmem), hp.calls⟩ fun _ => ?_
    rw [List.length_drop, (ht.outer outer).1, List.nil_append]
    have : bufSize + 2 < 2 ^ 32 := by decide
    omega
  | @gathered _ buf appended cmd bodySize _ inner filled string gathers =>
    have hbuf : buf.length = bufSize := by
      rcases filled with rfl | ⟨data, hi, rfl⟩
      · exact hp.buf
      · exact hfilled data hi
    have happended := hp.appended hbuf string
    refine gather_plain sends gathers ⟨hbuf, happended.1, hp.calls⟩ fun hwrap => ?_
    -- the sum has wrapped to 0 or 1, and still the bytes gathered so far were fewer
    have hlacks := (ht.inner _ _ inner).2.2
    have hlt := bodySize.toNat_lt
    have hsum : (bodySize + 2).toNat = (bodySize.toNat + 2) % 2 ^ 32 := UInt32.toNat_add _ _
    have : bufSize + 3 < 2 ^ 32 := by decide
    rw [List.length_append]
    omega

theorem after_plain (sends : ∀ log, 0 < backend.send log) {negative : Bool} {h : Handler}
    {inputs : List Input} (ha : (fresh negative).after server backend inputs = some h) :
    h.Plain := by
  refine (after_invariant (I := fun h => (h.Guarded server ∧ h.Tidy) ∧ h.Plain)
    (fun h i _ t hi hs => ?_)
    ⟨⟨fresh_guarded server negative, fresh_tidy negative⟩, fresh_plain negative⟩ ha).2
  have hm := moves_of_step sends hs
  exact ⟨⟨(hi.1.1.of_move sends hm).1, hi.1.2.of_move sends hi.1.1 hm⟩, hi.2.of_step sends hi.1.2 hs⟩

theorem Ready.parses {h : Handler} (hr : h.Ready) {data : Bytes} (hz : 0 ∉ data)
    (hlt : data.length < bufSize) :
    cString (overwrite h.buf 0 data) = some data ∧
      h.parser.parseChars (h.command ++ data ++ [0]) data.length = some (h.parser.parse data) := by
  have hfilled := filled_zeros.overwrite hz (Nat.le_of_lt hlt)
  rw [List.drop_nil, List.append_nil] at hfilled
  refine ⟨by rw [hr.buf, hfilled.cString hlt], ?_⟩
  simp [Parser.parseChars, hr.command]

theorem Ready.rejects (server : Server) (sends : ∀ log, 0 < backend.send log) {h : Handler}
    (hr : h.Ready) {data : Bytes} (hne : data ≠ []) (hz : 0 ∉ data) (hlt : data.length < bufSize)
    (hthrew : ∀ negative, ∃ p e pos, (Parser.fresh negative).parse data = .threw p e pos) :
    ∃ t, h.step server backend (.read data) = some (t, ()) ∧ t.phase = .returned ∧
      t.executed = h.executed := by
  obtain ⟨hstring, hcall⟩ := hr.parses hz hlt
  obtain ⟨negative, hparser⟩ := hr.parser
  obtain ⟨p, e, pos, hp⟩ := hthrew negative
  rw [hparser, hp] at hcall
  rw [step_read (Nat.le_of_lt hlt), onRead_outer hr.phase hne]
  simp only [readHeader, hstring, hparser, Option.bind_eq_bind, Option.bind_some, hcall,
    Option.pure_def, sendOutput_sent sends, Option.map_some]
  refine ⟨_, rfl, rfl, ?_⟩
  rw [executed_epilogue]
  simp [executed]

theorem Ready.keeps (server : Server) (backend : Backend) {h : Handler} (hr : h.Ready) {data : Bytes}
    (hne : data ≠ []) (hz : 0 ∉ data) (hlt : data.length < bufSize)
    (hopen : ∀ negative, ∃ p n, (Parser.fresh negative).parse data = .returned p n ∧
      p.parseComplete = false) :
    ∃ t, h.step server backend (.read data) = some (t, ()) ∧ t.executed = h.executed := by
  obtain ⟨hstring, hcall⟩ := hr.parses hz hlt
  obtain ⟨negative, hparser⟩ := hr.parser
  obtain ⟨p, n, hp, hinc⟩ := hopen negative
  rw [hparser, hp] at hcall
  rw [step_read (Nat.le_of_lt hlt), onRead_outer hr.phase hne]
  simp only [readHeader, hstring, hparser, Option.bind_eq_bind, Option.bind_some, hcall, hinc,
    Bool.false_eq_true, if_false, Option.pure_def, Option.map_some]
  exact ⟨_, rfl, rfl⟩

theorem returned_after {h : Handler} (hr : h.phase = .returned) {reads : List Bytes}
    (hreads : ∀ r ∈ reads, r.length ≤ bufSize) :
    h.after server backend (reads.map Input.read) = some h := by
  induction reads with
  | nil => rfl
  | cons r reads ih =>
    have hstep : h.step server backend (.read r) = some (h, ()) := by
      rw [step_read (hreads r List.mem_cons_self), onRead, hr]
      rfl
    rw [List.map_cons, after_cons, hstep, Option.bind_some]
    exact ih fun r' hr' => hreads r' (List.mem_cons_of_mem r hr')

/-- What is left of the end of a line executes nothing. -/
theorem Ready.ignores_line_end (server : Server) (sends : ∀ log, 0 < backend.send log) {h : Handler}
    (hr : h.Ready) {reads : List Bytes} (hne : ∀ r ∈ reads, r ≠ [])
    (hflat : reads.flatten <:+ [cr, lf]) :
    ∃ t, h.after server backend (reads.map Input.read) = some t ∧ t.executed = h.executed := by
  have hshort : ∀ r ∈ reads, r.length ≤ bufSize := by
    intro r hmem
    have hlen := (List.sublist_flatten_of_mem hmem).length_le.trans hflat.length_le
    exact hlen.trans (by decide)
  cases reads with
  | nil => exact ⟨h, rfl, rfl⟩
  | cons r reads =>
    have hr' := hne r List.mem_cons_self
    rw [List.map_cons, after_cons]
    rw [List.flatten_cons, List.suffix_cons_iff, List.suffix_cons_iff, List.suffix_nil] at hflat
    rcases hflat with hflat | hflat | hflat
    · -- a carriage return starts no command, and after it nothing is read any more
      obtain ⟨w, rfl⟩ : ∃ w, r = cr :: w := by
        obtain ⟨c, w, rfl⟩ := List.exists_cons_of_ne_nil hr'
        exact ⟨w, by rw [(List.cons.inj hflat).1]⟩
      have hzero : (0 : UInt8) ∉ cr :: w := by
        intro hmem
        have : (0 : UInt8) ∈ [cr, lf] := hflat ▸ List.mem_append_left _ hmem
        exact absurd this (by decide)
      have hlt : (cr :: w).length < bufSize := by
        have := congrArg List.length hflat
        rw [List.length_append] at this
        exact Nat.lt_of_le_of_lt (Nat.le.intro this) (by decide)
      obtain ⟨t, hstep, hreturned, hexec⟩ := hr.rejects server sends hr' hzero hlt
        fun negative => ⟨_, _, _, rfl⟩
      rw [hstep, Option.bind_some,
        returned_after hreturned fun r' hr' => hshort r' (List.mem_cons_of_mem _ hr')]
      exact ⟨t, rfl, hexec⟩
    · obtain ⟨rfl, hnil⟩ : r = [lf] ∧ reads.flatten = [] := by
        obtain ⟨c, w, rfl⟩ := List.exists_cons_of_ne_nil hr'
        obtain ⟨rfl, hrest⟩ := List.cons.inj hflat
        obtain ⟨rfl, hnil⟩ := List.append_eq_nil_iff.mp hrest
        exact ⟨rfl, hnil⟩
      have hend : reads = [] := by
        refine List.eq_nil_iff_forall_not_mem.mpr fun r' hmem => ?_
        exact hne r' (List.mem_cons_of_mem _ hmem) (List.flatten_eq_nil_iff.mp hnil r' hmem)
      obtain ⟨t, hstep, hexec⟩ := hr.keeps server backend hr' (by decide) (by decide)
        fun negative => ⟨_, _, rfl, rfl⟩
      rw [hstep, hend]
      exact ⟨t, rfl, hexec⟩
    · exact absurd (List.append_eq_nil_iff.mp hflat).1 hr'

/-- With the body gathered, the rest of the command and what is left of earlier
reads only decide when it is executed. -/
theorem Gathering.late (server : Server) (sends : ∀ log, 0 < backend.send log) {q : Request}
    (hb : q.body ≠ []) (hn : q.body.length + 2 < 2 ^ 32) {reads : List Bytes} {g : Handler}
    {got held : Bytes} (hg : Gathering got held g) (hheld : held.length < bufSize)
    (htake : got.take q.body.length = q.body) (hne : ∀ r ∈ reads, r ≠ [])
    (hflat : reads.flatten <:+ [cr, lf])
    (henough : q.body.length + 2 ≤ got.length + reads.flatten.length) :
    ∃ t, ((g.gather server backend (some q.command) (UInt32.ofNat q.body.length)).bind fun u =>
        u.after server backend (reads.map Input.read)) = some t ∧
      t.executed = g.executed ++ [q.call] := by
  have hlength := congrArg List.length htake
  rw [List.length_take] at hlength
  induction reads generalizing g got held with
  | nil =>
    obtain ⟨t, hgather, _, hexec, _⟩ := hg.runs server sends hn (Or.inr (by simpa using henough)) htake
    exact ⟨t, by rw [hgather]; rfl, hexec⟩
  | cons r reads ih =>
    by_cases hfull : q.body.length + 2 ≤ got.length
    · obtain ⟨u, hgather, hready, hexec, _⟩ := hg.runs server sends hn (Or.inr hfull) htake
      obtain ⟨t, hafter, hsame⟩ := hready.ignores_line_end server sends hne hflat
      exact ⟨t, by rw [hgather]; exact hafter, hsame.trans hexec⟩
    · obtain ⟨u, hgather, hin, hlog⟩ := hg.waits server backend hb hn (by omega)
      have hsub : r <:+: [cr, lf] := by
        rw [List.flatten_cons] at hflat
        exact (List.prefix_append r _).isInfix.trans hflat.isInfix
      have hzero : 0 ∉ r := fun hmem => absurd (hsub.subset hmem) (by decide)
      have hshort : r.length < bufSize := Nat.lt_of_le_of_lt hsub.length_le (by decide)
      obtain ⟨g', hg', hlog', hstep⟩ := hin.read server backend hzero hshort hheld
      have htake' : (got ++ (r ++ held.drop r.length)).take q.body.length = q.body := by
        rw [List.take_append_of_le_length (by omega), htake]
      rw [List.flatten_cons] at hflat henough
      rw [List.length_append] at henough
      obtain ⟨t, hafter, hexec⟩ := ih hg' (by
        rw [List.length_append, List.length_drop]
        omega) htake' (fun r' hr' => hne r' (List.mem_cons_of_mem r hr'))
        ((List.suffix_append r _).trans hflat) (by
          rw [List.length_append, List.length_append]
          omega) (by
          rw [List.length_append]
          omega)
      have hsame : g'.executed = g.executed := by
        rw [Handler.executed, hlog', hlog, Handler.executed]
      refine ⟨t, ?_, by rw [hexec, hsame]⟩
      rw [hgather, Option.bind_some, List.map_cons, after_cons, hstep, Option.bind_map]
      exact hafter

end Handler

/-- The first read that ends at a place or behind it. -/
theorem exists_crossing {place : Nat} {reads : List Bytes} (hpos : 0 < place)
    (hle : place ≤ reads.flatten.length) :
    ∃ before data later, reads = before ++ data :: later ∧ before.flatten.length < place ∧
      place ≤ (before ++ [data]).flatten.length := by
  induction reads using List.reverseRecOn with
  | nil => exact absurd hle (by simp; omega)
  | append_singleton reads data ih =>
    by_cases hbefore : place ≤ reads.flatten.length
    · obtain ⟨before, first, later, rfl, hlt, hend⟩ := ih hbefore
      exact ⟨before, first, later ++ [data], by simp, hlt, hend⟩
    · exact ⟨reads, data, [], rfl, by omega, hle⟩

/-- The command was executed once, with its body. -/
def BodyIntact (server : Server) (backend : Backend) (negative : Bool) (q : Request)
    (reads : List Bytes) : Prop :=
  ∃ t, (Handler.fresh negative).after server backend (reads.map Input.read) = some t ∧
    t.executed = [q.call]

/-- The read that brings the end of the body: from then on the body is gathered,
and at most the line end is left. -/
theorem Handler.Inside.brings_body (server : Server) (backend : Backend) {q : Request}
    (hq : q.Framed) (hb : q.body ≠ []) (hz : 0 ∉ q.payload) {reads : List Bytes}
    {data later : Bytes} {h : Handler} (hin : h.Inside q reads)
    (hstream : q.encode = (reads ++ [data]).flatten ++ later)
    (hfits : Fits q.header (q.header.length + q.body.length) (reads.map List.length) data.length)
    (hlt : reads.flatten.length < q.header.length + q.body.length)
    (hend : q.header.length + q.body.length ≤ (reads ++ [data]).flatten.length) :
    ∃ g got held, Handler.Gathering got held g ∧ held.length < bufSize ∧ g.log = h.log ∧
      got.take q.body.length = q.body ∧ later <:+ [cr, lf] ∧
      q.body.length + 2 ≤ got.length + later.length ∧ h.step server backend (.read data) =
        (g.gather server backend (some q.command) (UInt32.ofNat q.body.length)).map (·, ()) := by
  obtain ⟨got, hsplit, hpayload⟩ := Request.behind_header hstream (by omega)
  have hlength := congrArg List.length hsplit
  rw [List.length_append] at hlength
  obtain ⟨ends, rfl⟩ : q.body <+: got :=
    List.prefix_of_prefix_length_le ⟨[cr, lf], (Request.payload_eq hb).symm⟩ ⟨later, hpayload.symm⟩
      (by omega)
  have hends : [cr, lf] = ends ++ later := by
    rw [Request.payload_eq hb, List.append_assoc] at hpayload
    exact List.append_cancel_left hpayload
  obtain ⟨hclean, hshort⟩ := hfits.clean hsplit
    (fun hmem => hz (hpayload ▸ List.mem_append_left later hmem)) hlt
  obtain ⟨g, hg, hlog, hheld, hstep⟩ := hin.gathers server backend hq hsplit hclean hshort
  refine ⟨g, _, _, hg, hheld, hlog, by simp, ⟨ends, hends.symm⟩, ?_, hstep⟩
  have hline := congrArg List.length hends
  simp only [List.length_append, List.length_cons, List.length_nil] at hline ⊢
  omega

theorem intact_of_fits (server : Server) {backend : Backend} (sends : ∀ log, 0 < backend.send log)
    (negative : Bool) {q : Request} (hq : q.Framed) (hb : q.body ≠ [])
    (hn : q.body.length + 2 < 2 ^ 32) (hz : 0 ∉ q.body) {reads : List Bytes}
    (hstream : reads.flatten = q.encode) (hreads : ∀ r ∈ reads, r ≠ [] ∧ r.length ≤ bufSize)
    (hfits : ∀ front l, front ++ [l] <+: reads.map List.length →
      Fits q.header (q.header.length + q.body.length) front l) :
    BodyIntact server backend negative q reads := by
  have hpos := List.length_pos_iff.mpr hb
  have hencode : q.encode.length = q.header.length + q.payload.length := List.length_append
  rw [Request.payload_length hb] at hencode
  have hzero := Request.no_zero_payload hb hz
  have hplace : 0 < q.header.length + q.body.length := by omega
  obtain ⟨before, data, later, rfl, hlt, hend⟩ :=
    exists_crossing hplace (show _ ≤ reads.flatten.length by rw [hstream]; omega)
  have hcut : q.encode = (before ++ [data]).flatten ++ later.flatten := by
    rw [← hstream]
    simp
  have hmap : before.map List.length ++ [data.length] <+:
      (before ++ data :: later).map List.length := ⟨later.map List.length, by simp⟩
  obtain ⟨mid, hmid, hin, hlog⟩ := (Handler.fresh_ready negative).inside_after server backend hq
    (show q.encode = before.flatten ++ (data ++ later.flatten) by simpa using hcut) hzero
    (fun r hr => hreads r (List.mem_append_left _ hr))
    (fun front l hpre => hfits front l (hpre.trans ((List.prefix_append _ _).trans hmap)))
    hn (fun _ => hb) (by omega) hlt
  obtain ⟨g, got, held, hg, hheld, hlog', htake, hline, henough, hstep⟩ :=
    hin.brings_body server backend hq hb hzero hcut (hfits _ _ hmap) hlt hend
  obtain ⟨t, hafter, hexec⟩ := hg.late server sends hb hn hheld htake
    (fun r hr => (hreads r (List.mem_append_right _ (List.mem_cons_of_mem data hr))).1) hline henough
  refine ⟨t, ?_, ?_⟩
  · rw [Handler.after_reads hmid, hstep, Option.bind_map]
    exact hafter
  · rw [hexec, Handler.executed, hlog', hlog]
    rfl

end Afina
