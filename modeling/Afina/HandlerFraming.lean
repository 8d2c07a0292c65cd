import Afina.HandlerEnd
import Afina.ConnectionRequests
import Mathlib.Data.List.TakeWhile

namespace Afina

open Scan

/-- A buffer that holds this text and zeros behind it. -/
def Filled (buf held : Bytes) : Prop :=
  0 ∉ held ∧ ∃ k, buf = held ++ List.replicate k 0 ∧ held.length + k = bufSize

theorem filled_zeros : Filled (List.replicate bufSize 0) [] :=
  ⟨by simp, bufSize, rfl, Nat.zero_add _⟩

/-- A read leaves what it does not reach of the text that was there. -/
theorem Filled.overwrite {buf held data : Bytes} (h : Filled buf held) (hz : 0 ∉ data)
    (hd : data.length ≤ bufSize) :
    Filled (overwrite buf 0 data) (data ++ held.drop data.length) := by
  obtain ⟨hheld, k, rfl, hk⟩ := h
  refine ⟨?_, k - (data.length - held.length), ?_, ?_⟩
  · intro hmem
    rcases List.mem_append.mp hmem with hmem | hmem
    · exact hz hmem
    · exact hheld (List.mem_of_mem_drop hmem)
  · simp [Afina.overwrite, List.drop_append]
  · rw [List.length_append, List.length_drop]
    omega

theorem Filled.cString {buf held : Bytes} (h : Filled buf held) (hlt : held.length < bufSize) :
    cString buf = some held := by
  obtain ⟨hheld, k, rfl, hk⟩ := h
  have hzero : (0 : UInt8) ∈ held ++ List.replicate k 0 := by
    refine List.mem_append_right _ (List.mem_replicate.mpr ⟨by omega, rfl⟩)
  have hall : held.takeWhile (· != 0) = held := by
    refine List.takeWhile_eq_self_iff.mpr fun c hc => ?_
    have hne : c ≠ 0 := fun he => hheld (he ▸ hc)
    simpa using hne
  rw [Afina.cString, if_pos hzero, takeWhile_zeros, hall]

/-- A piece of a header that `Parse` gets to see whole: it has no zero, or only a
last one, and the buffer ends it. -/
def Readable (data : Bytes) : Prop := 0 ∉ data.dropLast ∧ (0 ∈ data ∨ data.length < bufSize)

theorem readable_of_no_zero {data : Bytes} (hz : 0 ∉ data) (hlt : data.length < bufSize) :
    Readable data :=
  ⟨fun h => hz (List.mem_of_mem_dropLast h), Or.inr hlt⟩

theorem Readable.string {data : Bytes} (h : Readable data) (hne : data ≠ [])
    (hd : data.length ≤ bufSize) :
    ∃ held, cString (overwrite (List.replicate bufSize 0) 0 data) = some held ∧
      held.length ≤ data.length ∧ ((0 : UInt8) ∉ data → held = data) ∧
      (held ++ [0]).take data.length = data ∧ data.length ≤ (held ++ [0]).length := by
  by_cases hz : (0 : UInt8) ∈ data
  · have hsplit := List.dropLast_append_getLast hne
    have hlast : data.getLast hne = 0 := by
      rw [← hsplit] at hz
      rcases List.mem_append.mp hz with hz | hz
      · exact absurd hz h.1
      · exact (List.mem_singleton.mp hz).symm
    rw [hlast] at hsplit
    have hfilled : Filled (overwrite (List.replicate bufSize 0) 0 data) data.dropLast := by
      refine ⟨h.1, bufSize - data.length + 1, ?_, ?_⟩
      · rw [overwrite_zeros, List.replicate_succ, List.append_cons, hsplit]
      · rw [List.length_dropLast]
        have := List.length_pos_iff.mpr hne
        omega
    have hlen : data.dropLast.length = data.length - 1 := List.length_dropLast
    have hpos := List.length_pos_iff.mpr hne
    refine ⟨data.dropLast, hfilled.cString (by omega), by omega, fun hno => absurd hz hno, ?_, ?_⟩
    · rw [hsplit, List.take_length]
    · rw [hsplit]
  · have hlt := h.2.resolve_left hz
    have hfilled := filled_zeros.overwrite hz hd
    rw [List.drop_nil, List.append_nil] at hfilled
    refine ⟨data, hfilled.cString hlt, Nat.le_refl _, fun _ => rfl, ?_, ?_⟩
    · rw [List.take_left]
    · rw [List.length_append]
      omega

theorem forall_prefix_of_take {α : Type} {P : List α → α → Prop} {all : List α}
    (h : ∀ i (hi : i < all.length), P (all.take i) all[i]) :
    ∀ front l, front ++ [l] <+: all → P front l := by
  rintro front l ⟨back, rfl⟩
  simpa using h front.length (by simp)

/-- What the next read of a command may be, behind reads of these lengths. Of the
header it carries no zero but as its last byte; the buffer ends it; and behind the
header, as long as it ends before the bound, it covers the read before. -/
structure Fits (header : Bytes) (bound : Nat) (front : List Nat) (l : Nat) : Prop where
  readable : 0 ∉ ((header.drop front.sum).take l).dropLast
  short : front.sum < bound →
    l < bufSize ∨ (front.sum + l < header.length ∧ 0 ∈ (header.drop front.sum).take l)
  wide : header.length ≤ front.sum → front.sum + l < bound → ∀ last ∈ front.getLast?, last ≤ l

instance (header : Bytes) (bound : Nat) (front : List Nat) (l : Nat) :
    Decidable (Fits header bound front l) :=
  decidable_of_iff
    (0 ∉ ((header.drop front.sum).take l).dropLast ∧
      (front.sum < bound →
        l < bufSize ∨ (front.sum + l < header.length ∧ 0 ∈ (header.drop front.sum).take l)) ∧
      (header.length ≤ front.sum → front.sum + l < bound → ∀ last ∈ front.getLast?, last ≤ l))
    ⟨fun ⟨hreadable, hshort, hwide⟩ => ⟨hreadable, hshort, hwide⟩,
      fun h => ⟨h.readable, h.short, h.wide⟩⟩

namespace Handler

/-- Between two commands. -/
structure Ready (h : Handler) : Prop where
  phase : h.phase = .outer
  command : h.command = []
  buf : h.buf = List.replicate bufSize 0
  parser : ∃ negative, h.parser = Parser.fresh negative

/-- In a header, of which these bytes are still to come. -/
structure InHeader (q : Request) (post : Bytes) (h : Handler) : Prop where
  phase : h.phase = .outer
  command : h.command = []
  buf : h.buf = List.replicate bufSize 0
  scanned : ∃ negative pre, q.header = pre ++ post ∧
    (Parser.fresh negative).parse pre = .returned h.parser pre.length
  incomplete : h.parser.parseComplete = false
  more : post ≠ []

/-- Behind a header, with these bytes gathered and those held in the buffer. -/
structure Gathering (got held : Bytes) (h : Handler) : Prop where
  command : h.command = got
  filled : Filled h.buf held
  parser : ∃ negative, h.parser = Parser.fresh negative

/-- At the `read` of the inner loop. -/
structure InBody (q : Request) (got held : Bytes) (h : Handler) : Prop extends
    Gathering got held h where
  phase : h.phase = .inner (some q.command) (UInt32.ofNat q.body.length)

theorem fresh_ready (negative : Bool) : (fresh negative).Ready :=
  ⟨rfl, rfl, rfl, negative, rfl⟩

theorem Ready.inHeader {h : Handler} (hr : h.Ready) (q : Request) : h.InHeader q q.header := by
  obtain ⟨negative, hp⟩ := hr.parser
  exact ⟨hr.phase, hr.command, hr.buf, ⟨negative, [], rfl, by rw [hp]; rfl⟩, by rw [hp]; rfl,
    q.header_ne_nil⟩

theorem sum_of_small {n : Nat} (hn : n + 2 < 2 ^ 32) : (UInt32.ofNat n + 2).toNat = n + 2 := by
  have htwo : UInt32.ofNat n + 2 = UInt32.ofNat (n + 2) := (UInt32.ofNat_add n 2).symm
  rw [htwo, UInt32.toNat_ofNat_of_lt' hn]

theorem Gathering.runs (server : Server) {backend : Backend}
    (sends : ∀ log, 0 < backend.send log) {q : Request} {g : Handler}
    {got held : Bytes} (hg : Gathering got held g) (hn : q.body.length + 2 < 2 ^ 32)
    (hfull : q.body = [] ∨ q.body.length + 2 ≤ got.length) (hargs : got.take q.body.length = q.body) :
    ∃ t, g.gather server backend (some q.command) (UInt32.ofNat q.body.length) = some t ∧
      t.Ready ∧ t.executed = g.executed ++ [q.call] ∧ t.sent.length = g.sent.length + 1 := by
  have hlt : q.body.length < 2 ^ 32 := by omega
  have hsize : (UInt32.ofNat q.body.length).toNat = q.body.length :=
    UInt32.toNat_ofNat_of_lt' hlt
  have hl : ¬ g.Lacks (UInt32.ofNat q.body.length) := by
    rintro ⟨hpos, hmore⟩
    rcases hfull with hnil | hle
    · simp [hnil] at hpos
    · rw [sum_of_small hn, hg.command] at hmore
      omega
  have hargs' : g.arguments (UInt32.ofNat q.body.length) = q.body := by
    unfold arguments
    split
    next => rw [hsize, hg.command, hargs]
    next hzero =>
      rw [UInt32.lt_iff_toNat_lt, hsize] at hzero
      exact (List.eq_nil_of_length_eq_zero (by simpa using hzero)).symm
  refine ⟨_, gather_of_not_lacks sends hl q.command, ⟨rfl, rfl, rfl, hg.parser⟩, ?_, ?_⟩
  · rw [answered_executed, hargs']
    rfl
  · exact answered_sent _ _ _

variable (server : Server) (backend : Backend)

/-- A read that stays inside the header. -/
theorem InHeader.part {q : Request} (hq : q.Framed) {h : Handler} {data post : Bytes}
    (hh : h.InHeader q (data ++ post)) (hmore : post ≠ []) (hne : data ≠ [])
    (hd : data.length ≤ bufSize) (hr : Readable data) :
    ∃ t, h.step server backend (.read data) = some (t, ()) ∧ t.InHeader q post ∧ t.log = h.log := by
  obtain ⟨negative, pre, hsplit, hscanned⟩ := hh.scanned
  obtain ⟨held, hstring, hle, _, htake, hlen⟩ := hr.string hne hd
  obtain ⟨p, hp, hinc, hscan⟩ := hq.parse_part hsplit hmore hscanned hh.incomplete
  have hparse : h.parser.parseChars (held ++ [0]) data.length = some (.returned p data.length) := by
    simp only [Parser.parseChars, htake, if_pos hlen, hp]
  have hdone : held.drop data.length = [] := List.drop_eq_nil_of_le hle
  refine ⟨nextPass { h with parser := p, command := [], buf := overwrite h.buf 0 data }, ?_, ?_, rfl⟩
  · rw [step_read hd, onRead_outer hh.phase hne]
    simp only [readHeader, hh.buf, hh.command, hstring, List.nil_append, Option.bind_eq_bind,
      Option.bind_some, hparse, hinc, Bool.false_eq_true, if_false, hdone, Option.pure_def,
      Option.map_some]
  · exact ⟨rfl, rfl, rfl, ⟨negative, pre ++ data, by rw [hsplit, List.append_assoc], hscan⟩, hinc,
      hmore⟩

/-- The read that completes the header: what it carries behind it is gathered. -/
theorem InHeader.finish {q : Request} (hq : q.Framed) {h : Handler} {post w : Bytes}
    (hh : h.InHeader q post) (hz : 0 ∉ post ++ w) (hd : (post ++ w).length < bufSize) :
    ∃ g, Gathering w (post ++ w) g ∧ g.log = h.log ∧ h.step server backend (.read (post ++ w)) =
      (g.gather server backend (some q.command) (UInt32.ofNat q.body.length)).map (·, ()) := by
  obtain ⟨negative, pre, hsplit, hscanned⟩ := hh.scanned
  have hne : post ++ w ≠ [] := by simp [hh.more]
  obtain ⟨held, hstring, _, hheld, htake, hlen⟩ :=
    (readable_of_no_zero hz hd).string hne (Nat.le_of_lt hd)
  cases hheld hz
  obtain ⟨p, hp, hcomplete, hbuild⟩ := hq.parse_rest hsplit hscanned hh.incomplete w
  have hparse : h.parser.parseChars (post ++ w ++ [0]) (post ++ w).length =
      some (.returned p post.length) := by
    simp only [Parser.parseChars, htake, if_pos hlen, hp]
  have hfilled := filled_zeros.overwrite hz (Nat.le_of_lt hd)
  rw [List.drop_nil, List.append_nil] at hfilled
  refine ⟨{ h with
    parser := p.reset, command := w
    buf := overwrite (List.replicate bufSize 0) 0 (post ++ w) }, ⟨rfl, hfilled, _, rfl⟩, rfl, ?_⟩
  rw [step_read (Nat.le_of_lt hd), onRead_outer hh.phase hne]
  simp only [readHeader, hh.buf, hh.command, hstring, List.nil_append, Option.bind_eq_bind,
    Option.bind_some, hparse, hcomplete, if_true, hbuild, List.drop_left]

/-- A read of the inner loop: what it does not overwrite in the buffer is
appended behind it. -/
theorem InBody.read {q : Request} {h : Handler} {got held data : Bytes} (hb : h.InBody q got held)
    (hz : 0 ∉ data) (hd : data.length < bufSize) (hheld : held.length < bufSize) :
    ∃ g, Gathering (got ++ (data ++ held.drop data.length)) (data ++ held.drop data.length) g ∧
      g.log = h.log ∧ h.step server backend (.read data) =
        (g.gather server backend (some q.command) (UInt32.ofNat q.body.length)).map (·, ()) := by
  have hfilled := hb.filled.overwrite hz (Nat.le_of_lt hd)
  have hstring := hfilled.cString (by
    rw [List.length_append, List.length_drop]
    omega)
  refine ⟨{ h with
    command := h.command ++ (data ++ held.drop data.length)
    buf := overwrite h.buf 0 data }, ⟨by rw [← hb.command], hfilled, hb.parser⟩, rfl, ?_⟩
  rw [step_read (Nat.le_of_lt hd), onRead, hb.phase]
  simp only [readBody, hstring, Option.bind_eq_bind, Option.bind_some]

theorem Gathering.waits {q : Request} {g : Handler} {got held : Bytes} (hg : Gathering got held g)
    (hbody : q.body ≠ []) (hn : q.body.length + 2 < 2 ^ 32)
    (hlacks : got.length < q.body.length + 2) :
    ∃ t, g.gather server backend (some q.command) (UInt32.ofNat q.body.length) = some t ∧
      t.InBody q got held ∧ t.log = g.log := by
  have hlt : q.body.length < 2 ^ 32 := by omega
  have hl : g.Lacks (UInt32.ofNat q.body.length) := by
    refine ⟨?_, ?_⟩
    · rw [UInt32.lt_iff_toNat_lt, UInt32.toNat_ofNat_of_lt' hlt]
      exact List.length_pos_iff.mpr hbody
    · rw [sum_of_small hn, hg.command]
      exact hlacks
  exact ⟨_, gather_of_lacks hl _, ⟨⟨hg.command, hg.filled, hg.parser⟩, rfl⟩, rfl⟩

/-- What a read leaves in the buffer of the one before, once the header is behind. -/
def stale (q : Request) (reads : List Bytes) (data : Bytes) : Bytes :=
  if q.header.length ≤ reads.flatten.length then (reads.getLast?.getD []).drop data.length else []

/-- Inside a command, behind these reads of it. -/
inductive Inside (q : Request) (reads : List Bytes) (h : Handler) : Prop
  | header {post : Bytes} (split : q.header = reads.flatten ++ post) (here : h.InHeader q post) :
      Inside q reads h
  | body {got held : Bytes} (split : reads.flatten = q.header ++ got)
      (last : reads.getLast? = some held) (small : held.length < bufSize)
      (here : h.InBody q got held) : Inside q reads h

/-- A read that ends behind the header: its bytes of the body are gathered, and
behind them what it left in the buffer. -/
theorem Inside.gathers {q : Request} (hq : q.Framed) {reads : List Bytes} {data got : Bytes}
    {h : Handler} (hin : h.Inside q reads) (hsplit : (reads ++ [data]).flatten = q.header ++ got)
    (hz : 0 ∉ data) (hlt : data.length < bufSize) :
    ∃ g, Gathering (got ++ stale q reads data) (data ++ stale q reads data) g ∧ g.log = h.log ∧
      (data ++ stale q reads data).length < bufSize ∧ h.step server backend (.read data) =
        (g.gather server backend (some q.command) (UInt32.ofNat q.body.length)).map (·, ()) := by
  rw [List.flatten_append, List.flatten_singleton] at hsplit
  cases hin with
  | @header post split here =>
    have hnone : stale q reads data = [] := by
      have := List.length_pos_iff.mpr here.more
      refine if_neg ?_
      rw [split, List.length_append]
      omega
    rw [split, List.append_assoc] at hsplit
    cases List.append_cancel_left hsplit
    obtain ⟨g, hg, hlog, hstep⟩ := here.finish server backend hq hz hlt
    rw [hnone, List.append_nil, List.append_nil]
    exact ⟨g, hg, hlog, hlt, hstep⟩
  | @body before held split last small here =>
    have hstale : stale q reads data = held.drop data.length := by
      rw [stale, last, if_pos (by rw [split, List.length_append]; omega), Option.getD_some]
    rw [split, List.append_assoc] at hsplit
    cases List.append_cancel_left hsplit
    obtain ⟨g, hg, hlog, hstep⟩ := here.read server backend hz hlt small
    rw [hstale, List.append_assoc]
    refine ⟨g, hg, hlog, ?_, hstep⟩
    rw [List.length_append, List.length_drop]
    omega

end Handler

/-- A read that ends behind the header and has no zero in the header but as its
last byte has none there, for a header ends in a line feed. -/
theorem no_zero_of_readable {q : Request} {reads : List Bytes} {data got : Bytes}
    (hreadable : 0 ∉ ((q.header.drop (reads.map List.length).sum).take data.length).dropLast)
    (hsplit : (reads ++ [data]).flatten = q.header ++ got) (hz : 0 ∉ got) : 0 ∉ data := by
  rw [List.flatten_append, List.flatten_singleton] at hsplit
  rcases List.append_eq_append_iff.mp hsplit with ⟨post, hheader, rfl⟩ | ⟨before, _, rfl⟩
  · have hpiece : (q.header.drop (reads.map List.length).sum).take (post ++ got).length = post := by
      rw [← List.length_flatten, hheader, List.drop_left,
        List.take_of_length_le (by rw [List.length_append]; omega)]
    rw [hpiece] at hreadable
    intro hmem
    rcases List.mem_append.mp hmem with hmem | hmem
    · have hne := List.ne_nil_of_mem hmem
      obtain ⟨front, hlast⟩ := q.header_last
      have hlf : post.getLast hne = lf := by
        have := congrArg List.getLast? (hheader.symm.trans hlast)
        rw [List.getLast?_append_of_ne_nil _ hne, List.getLast?_concat,
          List.getLast?_eq_some_getLast hne] at this
        exact Option.some.inj this
      rw [← List.dropLast_append_getLast hne, hlf] at hmem
      rcases List.mem_append.mp hmem with hmem | hmem
      · exact hreadable hmem
      · exact absurd (List.mem_singleton.mp hmem) (by decide)
    · exact hz hmem
  · exact fun hmem => hz (List.mem_append_right _ hmem)

theorem Fits.clean {q : Request} {bound : Nat} {reads : List Bytes} {data got : Bytes}
    (h : Fits q.header bound (reads.map List.length) data.length)
    (hsplit : (reads ++ [data]).flatten = q.header ++ got) (hz : 0 ∉ got)
    (hbound : reads.flatten.length < bound) : 0 ∉ data ∧ data.length < bufSize := by
  refine ⟨no_zero_of_readable h.readable hsplit hz, ?_⟩
  have hlen := congrArg List.length hsplit
  rw [List.flatten_append, List.flatten_singleton, List.length_append, List.length_append] at hlen
  rw [List.length_flatten] at hbound hlen
  rcases h.short hbound with hlt | ⟨hinside, _⟩
  · exact hlt
  · omega

namespace Handler

variable (server : Server) (backend : Backend)

/-- A read that ends inside the header. -/
theorem Inside.part {q : Request} (hq : q.Framed) {reads : List Bytes} {data post : Bytes}
    {bound : Nat} {h : Handler} (hin : h.Inside q reads)
    (hsplit : q.header = (reads ++ [data]).flatten ++ post) (hmore : post ≠ [])
    (hne : data ≠ []) (hle : data.length ≤ bufSize)
    (hfits : Fits q.header bound (reads.map List.length) data.length)
    (hbound : reads.flatten.length < bound) :
    ∃ t, h.step server backend (.read data) = some (t, ()) ∧ t.Inside q (reads ++ [data]) ∧
      t.log = h.log := by
  have hsum : (reads.map List.length).sum = reads.flatten.length := List.length_flatten.symm
  have hcut : q.header = reads.flatten ++ (data ++ post) := by simpa using hsplit
  cases hin with
  | header split here =>
    cases List.append_cancel_left (split.symm.trans hcut)
    have hpiece : (q.header.drop (reads.map List.length).sum).take data.length = data := by
      rw [hsum, hcut, List.drop_left, List.take_left]
    have hreadable : Readable data := by
      refine ⟨by simpa only [hpiece] using hfits.readable, ?_⟩
      rcases hfits.short (by rw [hsum]; exact hbound) with hlt | ⟨_, hzero⟩
      · exact Or.inr hlt
      · exact Or.inl (by rwa [hpiece] at hzero)
    obtain ⟨t, hstep, hin', hlog⟩ := here.part server backend hq hmore hne hle hreadable
    exact ⟨t, hstep, .header hsplit hin', hlog⟩
  | body split _ _ _ =>
    have hlength := congrArg List.length hcut
    rw [split, List.length_append, List.length_append, List.length_append] at hlength
    have := List.length_pos_iff.mpr hmore
    omega

/-- A read that ends before the bound. -/
theorem Inside.read {q : Request} (hq : q.Framed) {reads : List Bytes} {data later : Bytes}
    {bound : Nat} {h : Handler} (hin : h.Inside q reads)
    (hstream : q.encode = (reads ++ [data]).flatten ++ later) (hz : 0 ∉ q.payload)
    (hne : data ≠ []) (hle : data.length ≤ bufSize)
    (hfits : Fits q.header bound (reads.map List.length) data.length)
    (hn : q.body.length + 2 < 2 ^ 32) (hbody : q.header.length < bound → q.body ≠ [])
    (hbound : bound ≤ q.encode.length) (hlt : (reads ++ [data]).flatten.length < bound) :
    ∃ t, h.step server backend (.read data) = some (t, ()) ∧ t.Inside q (reads ++ [data]) ∧
      t.log = h.log := by
  have hsum : (reads.map List.length).sum = reads.flatten.length := List.length_flatten.symm
  have hlength : (reads ++ [data]).flatten.length = reads.flatten.length + data.length := by simp
  have hbefore : reads.flatten.length < bound := by omega
  by_cases hend : (reads ++ [data]).flatten.length < q.header.length
  · obtain ⟨post, hsplit, hmore⟩ := Request.inside_header hstream hend
    exact hin.part server backend hq hsplit hmore hne hle hfits hbefore
  · obtain ⟨got, hsplit, hpayload⟩ := Request.behind_header hstream (Nat.le_of_not_lt hend)
    obtain ⟨hzero, hshort⟩ := hfits.clean hsplit
      (fun hmem => hz (hpayload ▸ List.mem_append_left later hmem)) hbefore
    have hnone : stale q reads data = [] := by
      unfold stale
      split
      next hpast =>
        cases hlast : reads.getLast? with
        | none => simp
        | some last =>
          refine List.drop_eq_nil_of_le (hfits.wide (by rwa [hsum]) (by rw [hsum]; omega) _ ?_)
          simp [List.getLast?_map, hlast]
      next => rfl
    obtain ⟨g, hg, hlog, _, hstep⟩ := hin.gathers server backend hq hsplit hzero hshort
    rw [hnone, List.append_nil, List.append_nil] at hg
    have hb : q.body ≠ [] := hbody (by omega)
    have hlacks : got.length < q.body.length + 2 := by
      have hencode : q.encode.length = q.header.length + q.payload.length := List.length_append
      have hgot := congrArg List.length hsplit
      rw [List.length_append] at hgot
      rw [Request.payload_length hb] at hencode
      omega
    obtain ⟨t, hgather, hin', hlog'⟩ := hg.waits server backend hb hn hlacks
    refine ⟨t, by rw [hstep, hgather]; rfl, ?_, hlog'.trans hlog⟩
    exact .body hsplit List.getLast?_concat hshort hin'

/-- Behind reads that fit, before the bound, the command is still open and what it
has of the body is gathered. -/
theorem Ready.inside_after {q : Request} (hq : q.Framed) {h : Handler} (hr : h.Ready)
    {reads : List Bytes} {later : Bytes} {bound : Nat} (hstream : q.encode = reads.flatten ++ later)
    (hz : 0 ∉ q.payload) (hreads : ∀ r ∈ reads, r ≠ [] ∧ r.length ≤ bufSize)
    (hfits : ∀ front l, front ++ [l] <+: reads.map List.length → Fits q.header bound front l)
    (hn : q.body.length + 2 < 2 ^ 32) (hbody : q.header.length < bound → q.body ≠ [])
    (hbound : bound ≤ q.encode.length) (hlt : reads.flatten.length < bound) :
    ∃ t, h.after server backend (reads.map Input.read) = some t ∧ t.Inside q reads ∧
      t.log = h.log := by
  induction reads using List.reverseRecOn generalizing later with
  | nil => exact ⟨h, rfl, .header rfl (hr.inHeader q), rfl⟩
  | append_singleton reads data ih =>
    have hlength : (reads ++ [data]).flatten.length = reads.flatten.length + data.length := by simp
    have hmap : (reads ++ [data]).map List.length = reads.map List.length ++ [data.length] := by simp
    rw [hmap] at hfits
    have hstream' : q.encode = reads.flatten ++ (data ++ later) := by simpa using hstream
    obtain ⟨mid, hmid, hin, hlog⟩ := ih hstream' (fun r hr => hreads r (List.mem_append_left _ hr))
      (fun front l hpre => hfits front l (hpre.trans (List.prefix_append _ _))) (by omega)
    obtain ⟨hne, hle⟩ := hreads data (List.mem_append_right _ List.mem_cons_self)
    obtain ⟨t, hstep, hin', hlog'⟩ := hin.read server backend hq hstream hz hne hle
      (hfits _ _ (List.prefix_refl _)) hn hbody hbound hlt
    refine ⟨t, ?_, hin', hlog'.trans hlog⟩
    rw [after_reads hmid, hstep]
    rfl

end Handler

end Afina
