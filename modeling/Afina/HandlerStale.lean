import Afina.HandlerBody

namespace Afina

open Scan

namespace Handler

variable (server : Server) (backend : Backend)

/-- A read that fills the buffer with no zero in it: there is no end to what is
appended. -/
theorem Inside.step_full {q : Request} {reads : List Bytes} {data : Bytes} {h : Handler}
    (hin : h.Inside q reads) (hz : 0 ∉ data) (hfull : data.length = bufSize) :
    h.step server backend (.read data) = none := by
  have hne : data ≠ [] := by
    rintro rfl
    simp [bufSize] at hfull
  rw [step_read (Nat.le_of_eq hfull)]
  cases hin with
  | header split here =>
    have hnone := cString_of_full hz hfull (show h.buf.length = bufSize by simp [here.buf])
    rw [onRead_outer here.phase hne]
    simp [readHeader, hnone]
  | body split last small here =>
    obtain ⟨_, k, hbuf, hk⟩ := here.filled
    have hnone := cString_of_full hz hfull (show h.buf.length = bufSize by simp [hbuf, hk])
    rw [onRead, here.phase]
    simp [readBody, hnone]

/-- A zero inside the header, before the end of a read: `Parse` goes beyond what
is there. -/
theorem InHeader.step_zero {q : Request} (hq : q.Framed) {front back rest : Bytes} {h : Handler}
    (here : h.InHeader q (front ++ 0 :: rest)) (hz : 0 ∉ front) (hback : back ≠ [])
    (hrest : rest ≠ []) (hle : (front ++ 0 :: back).length ≤ bufSize) :
    h.step server backend (.read (front ++ 0 :: back)) = none := by
  have hstring : cString (overwrite h.buf 0 (front ++ 0 :: back)) = some front := by
    have hall : ∀ c ∈ front, (c != 0) = true := by
      intro c hc
      have : c ≠ 0 := fun he => hz (he ▸ hc)
      simpa using this
    rw [here.buf, overwrite_zeros, cString, if_pos (by simp), takeWhile_zeros,
      List.takeWhile_append_of_pos hall]
    simp
  obtain ⟨negative, pre, hsplit, hscanned⟩ := here.scanned
  rw [show front ++ 0 :: rest = front ++ [0] ++ rest by simp] at hsplit
  obtain ⟨p, hp, hinc, _⟩ := hq.parse_part hsplit hrest hscanned here.incomplete
  have hlong : (front ++ [0]).length < (front ++ 0 :: back).length := by
    have := List.length_pos_iff.mpr hback
    simpa using this
  have hcall : h.parser.parseChars (front ++ [0]) (front ++ 0 :: back).length = none := by
    simp only [Parser.parseChars, List.take_of_length_le (Nat.le_of_lt hlong), hp,
      if_neg (Nat.not_le_of_lt hlong), hinc, Bool.false_eq_true, if_false]
  rw [step_read hle, onRead_outer here.phase (by simp)]
  simp only [readHeader, here.command, hstring, List.nil_append, Option.bind_eq_bind,
    Option.bind_some, hcall, Option.bind_none, Option.map_none]

theorem Inside.step_zero {q : Request} (hq : q.Framed) {reads : List Bytes} {data later : Bytes}
    {h : Handler} (hin : h.Inside q reads)
    (hstream : q.encode = (reads ++ [data]).flatten ++ later) (hle : data.length ≤ bufSize)
    (hzero : 0 ∈ ((q.header.drop (reads.map List.length).sum).take data.length).dropLast) :
    h.step server backend (.read data) = none := by
  rw [← List.length_flatten] at hzero
  cases hin with
  | @header post split here =>
    rw [split, List.drop_left] at hzero
    obtain ⟨front, w, hw, hz⟩ := List.eq_append_cons_of_mem hzero
    -- the read and the rest of the header agree up to the zero and one byte more
    have hne : post.take data.length ≠ [] := by
      intro hnil
      simp [hnil] at hzero
    have hpiece := List.dropLast_append_getLast hne
    rw [hw] at hpiece
    have hdata : post ++ q.payload = data ++ later := by
      rw [Request.encode, split] at hstream
      simpa using hstream
    obtain ⟨back, hback⟩ : post.take data.length <+: data :=
      List.prefix_of_prefix_length_le ((List.take_prefix _ _).trans ⟨_, rfl⟩) ⟨later, hdata.symm⟩
        (List.length_take_le _ _)
    have hpost := List.take_append_drop data.length post
    rw [← hpiece, List.append_assoc, List.append_assoc, List.cons_append] at hback hpost
    rw [← hpost] at here
    rw [← hback] at hle ⊢
    exact here.step_zero server backend hq hz (by simp) (by simp) hle
  | body split last small here =>
    rw [split, List.drop_eq_nil_of_le (by rw [List.length_append]; omega)] at hzero
    simp at hzero

variable {server backend}

theorem gather_keeps_byte (sends : ∀ log, 0 < backend.send log) {h t : Handler}
    {cmd : Option Command} {bodySize : UInt32} (hs : h.gather server backend cmd bodySize = some t)
    {k : Nat} {c : UInt8} (hc : h.command[k]? = some c) (hk : k < bodySize.toNat) :
    (t.phase = .inner cmd bodySize ∧ t.executed = h.executed ∧ t.command[k]? = some c) ∨
      ∃ com args, t.executed = h.executed ++ [(com, args)] ∧ args[k]? = some c := by
  rcases gather_cases sends hs with ⟨_, rfl⟩ | ⟨_, com, _, rfl⟩
  · exact Or.inl ⟨rfl, rfl, hc⟩
  · refine Or.inr ⟨com, _, answered_executed _ _ _, ?_⟩
    have hpos : 0 < bodySize := UInt32.lt_iff_toNat_lt.mpr (Nat.zero_lt_of_lt hk)
    rw [arguments, if_pos hpos, List.getElem?_take_of_lt hk, hc]

/-- A byte of the body that was gathered is passed to the command. -/
theorem inner_keeps_byte (sends : ∀ log, 0 < backend.send log) {h t : Handler}
    {inputs : List Input} {cmd : Option Command} {bodySize : UInt32}
    (inner : h.phase = .inner cmd bodySize) {k : Nat} {c : UInt8} (hc : h.command[k]? = some c)
    (hk : k < bodySize.toNat) (ha : h.after server backend inputs = some t) :
    t.executed = h.executed ∨
      ∃ com args, h.executed ++ [(com, args)] <+: t.executed ∧ args[k]? = some c := by
  induction inputs generalizing h with
  | nil =>
    cases Option.some.inj ha
    exact Or.inl rfl
  | cons i rest ih =>
    obtain ⟨mid, hs, ha⟩ := after_cons_eq_some ha
    obtain ⟨buf, appended, gathers⟩ := (moves_of_step sends hs).of_inner inner
    have hc' : (h.command ++ appended)[k]? = some c :=
      (List.getElem?_append_left (List.getElem?_eq_some_iff.mp hc).1).trans hc
    rcases gather_keeps_byte sends gathers hc' hk with
      ⟨hphase, hsame, hkept⟩ | ⟨com, args, hexec, harg⟩
    · have := ih hphase hkept ha
      rwa [hsame] at this
    · refine Or.inr ⟨com, args, ?_, harg⟩
      have := executed_after sends ha
      rwa [hexec] at this

/-- A wrong byte among those gathered for the body: the command is not executed
with it, or not at all. -/
theorem Gathering.spoiled (sends : ∀ log, 0 < backend.send log) {q : Request} {g t : Handler}
    {got held : Bytes} (hg : Gathering got held g) (hn : q.body.length < 2 ^ 32)
    {inputs : List Input} (hnone : g.executed = []) {k : Nat} (hk : k < q.body.length) {c : UInt8}
    (hgot : got[k]? = some c) (hwrong : q.body[k]? ≠ some c)
    (ha : ((g.gather server backend (some q.command) (UInt32.ofNat q.body.length)).bind fun u =>
      u.after server backend inputs) = some t) : t.executed ≠ [q.call] := by
  intro hexec
  obtain ⟨u, hgather, ha⟩ := Option.bind_eq_some_iff.mp ha
  have hc : g.command[k]? = some c := by rw [hg.command, hgot]
  have hk' : k < (UInt32.ofNat q.body.length).toNat := by rwa [UInt32.toNat_ofNat_of_lt' hn]
  obtain ⟨com, args, hcalls, harg⟩ : ∃ com args, [(com, args)] <+: t.executed ∧
      args[k]? = some c := by
    rcases gather_keeps_byte sends hgather hc hk' with ⟨hphase, hsame, hkept⟩ | ⟨com, args, he, harg⟩
    · rcases inner_keeps_byte sends hphase hkept hk' ha with he | ⟨com, args, he, harg⟩
      · rw [he, hsame, hnone] at hexec
        cases hexec
      · exact ⟨com, args, by simpa [hsame, hnone] using he, harg⟩
    · have := executed_after sends ha
      rw [he, hnone] at this
      exact ⟨com, args, this, harg⟩
  rw [hexec] at hcalls
  have hcall := (List.cons.inj (hcalls.eq_of_length rfl)).1
  have hbody : args = q.body := congrArg Prod.snd hcall
  rw [hbody] at harg
  exact hwrong harg

/-- Behind the bytes of a read stands what it left of the one before. -/
theorem stale_byte {q : Request} {reads : List Bytes} {data held : Bytes}
    (hpast : q.header.length ≤ reads.flatten.length) (hheld : reads.getLast? = some held)
    (hlong : data.length < held.length) (got : Bytes) :
    (got ++ stale q reads data)[got.length]? = some held[data.length] := by
  rw [stale, if_pos hpast, hheld, Option.getD_some, List.getElem?_append_right (Nat.le_refl _),
    Nat.sub_self, List.getElem?_drop, Nat.add_zero, List.getElem?_eq_getElem hlong]

/-- A read that does not fit is undefined, or it is one inside the body that
leaves bytes of the one before in the buffer. -/
theorem Inside.unfit (server : Server) (backend : Backend) {q : Request} (hq : q.Framed)
    {reads : List Bytes} {data later : Bytes} {bound : Nat} {h : Handler} (hin : h.Inside q reads)
    (hstream : q.encode = (reads ++ [data]).flatten ++ later) (hz : 0 ∉ q.payload)
    (hle : data.length ≤ bufSize)
    (hunfit : ¬ Fits q.header bound (reads.map List.length) data.length) :
    h.step server backend (.read data) = none ∨
      (0 ∉ data ∧ data.length < bufSize ∧ q.header.length ≤ reads.flatten.length ∧
        (reads ++ [data]).flatten.length < bound ∧
        ∃ held, reads.getLast? = some held ∧ data.length < held.length) := by
  have hsum : (reads.map List.length).sum = reads.flatten.length := List.length_flatten.symm
  have hlength : (reads ++ [data]).flatten.length = reads.flatten.length + data.length := by simp
  by_cases hreadable : 0 ∈ ((q.header.drop (reads.map List.length).sum).take data.length).dropLast
  · exact Or.inl (hin.step_zero server backend hq hstream hle hreadable)
  -- a read that ends behind the header has no zero any more
  have hclean : q.header.length ≤ (reads ++ [data]).flatten.length → 0 ∉ data := by
    intro hend
    obtain ⟨got, hsplit, hpayload⟩ := Request.behind_header hstream hend
    exact no_zero_of_readable hreadable hsplit
      fun hmem => hz (hpayload ▸ List.mem_append_left later hmem)
  by_cases hshort : data.length < bufSize ∨ ((reads.map List.length).sum + data.length <
      q.header.length ∧ 0 ∈ (q.header.drop (reads.map List.length).sum).take data.length)
  · obtain ⟨hpast, hbound, last, hlast, hlt⟩ : q.header.length ≤ (reads.map List.length).sum ∧
        (reads.map List.length).sum + data.length < bound ∧
        ∃ last, (reads.map List.length).getLast? = some last ∧ data.length < last := by
      by_contra hwide
      refine hunfit ⟨hreadable, fun _ => hshort, fun hpast hbound last hlast => ?_⟩
      by_contra hlt
      exact hwide ⟨hpast, hbound, last, hlast, Nat.lt_of_not_le hlt⟩
    rw [List.getLast?_map] at hlast
    obtain ⟨held, hheld, rfl⟩ := Option.map_eq_some_iff.mp hlast
    have hlt' : data.length < bufSize := by
      rcases hshort with hlt' | ⟨hinside, _⟩
      · exact hlt'
      · omega
    exact Or.inr ⟨hclean (by omega), hlt', by omega, by omega, held, hheld, hlt⟩
  · rw [not_or, not_and] at hshort
    refine Or.inl (hin.step_full server backend ?_ (by omega))
    by_cases hend : q.header.length ≤ (reads ++ [data]).flatten.length
    · exact hclean hend
    · obtain ⟨post, hsplit, _⟩ := Request.inside_header hstream (Nat.lt_of_not_le hend)
      have hpiece : (q.header.drop (reads.map List.length).sum).take data.length = data := by
        rw [hsum, hsplit]
        simp
      have := hshort.2 (by omega)
      rwa [hpiece] at this

end Handler

/-- A read that does not fit, when the bytes it leaves in the buffer are not by
chance those of the body. -/
theorem not_intact_of_unfit (server : Server) {backend : Backend}
    (sends : ∀ log, 0 < backend.send log) (negative : Bool) {q : Request} (hq : q.Framed)
    (hb : q.body ≠ []) (hn : q.body.length + 2 < 2 ^ 32) (hz : 0 ∉ q.payload)
    {before later : List Bytes} {data : Bytes}
    (hstream : q.encode = (before ++ [data]).flatten ++ later.flatten)
    (hreads : ∀ r ∈ before ++ data :: later, r ≠ [] ∧ r.length ≤ bufSize)
    (hfits : ∀ front l, front ++ [l] <+: before.map List.length →
      Fits q.header (q.header.length + q.body.length) front l)
    (hunfit : ¬ Fits q.header (q.header.length + q.body.length) (before.map List.length) data.length)
    (hwrong : ∀ held ∈ before.getLast?, ∀ got, (before ++ [data]).flatten = q.header ++ got →
      data.length < held.length → held[data.length]? ≠ q.body[got.length]?) :
    ¬ BodyIntact server backend negative q (before ++ data :: later) := by
  rintro ⟨t, ht, hexec⟩
  obtain ⟨hne, hle⟩ := hreads data (by simp)
  have hsum : (before.map List.length).sum = before.flatten.length := List.length_flatten.symm
  have hlength : (before ++ [data]).flatten.length = before.flatten.length + data.length := by simp
  have hencode : q.encode.length = q.header.length + q.payload.length := List.length_append
  rw [Request.payload_length hb] at hencode
  have hlt : before.flatten.length < q.header.length + q.body.length := by
    by_contra hlate
    refine hunfit ⟨?_, by omega, by omega⟩
    rw [hsum, List.drop_eq_nil_of_le (by omega)]
    simp
  obtain ⟨mid, hmid, hin, hlog⟩ := (Handler.fresh_ready negative).inside_after server backend hq
    (show q.encode = before.flatten ++ (data ++ later.flatten) by simpa using hstream) hz
    (fun r hr => hreads r (List.mem_append_left _ hr)) hfits hn (fun _ => hb) (by omega) hlt
  rw [Handler.after_reads hmid] at ht
  obtain ⟨⟨u, _⟩, hstep, ht⟩ := Option.bind_eq_some_iff.mp ht
  rcases hin.unfit server backend hq hstream hz hle hunfit with
    hnone | ⟨hclean, hshort, hpast, hbound, held, hheld, hlong⟩
  · cases hnone.symm.trans hstep
  · obtain ⟨got, hsplit, _⟩ := Request.behind_header hstream (by omega)
    obtain ⟨g, hg, hlog', _, hstep'⟩ := hin.gathers server backend hq hsplit hclean hshort
    have hend := congrArg List.length hsplit
    rw [List.length_append] at hend
    have hnone : g.executed = [] := by
      rw [Handler.executed, hlog', hlog]
      rfl
    have hgather : g.gather server backend (some q.command) (UInt32.ofNat q.body.length) = some u := by
      obtain ⟨u', hu, he⟩ := Option.map_eq_some_iff.mp (hstep'.symm.trans hstep)
      cases he
      exact hu
    refine hg.spoiled sends (by omega) hnone (by omega) (Handler.stale_byte hpast hheld hlong got)
      ?_ (by rw [hgather]; exact ht) hexec
    rw [← List.getElem?_eq_getElem hlong]
    exact (hwrong held hheld got hsplit hlong).symm

theorem exists_first_not {α : Type} {P : List α → α → Prop} {all : List α}
    (h : ¬ ∀ front l, front ++ [l] <+: all → P front l) :
    ∃ front l back, all = front ++ l :: back ∧
      (∀ front' l', front' ++ [l'] <+: front → P front' l') ∧ ¬ P front l := by
  induction all using List.reverseRecOn with
  | nil => exact absurd (fun front l hpre => by simp at hpre) h
  | append_singleton all last ih =>
    by_cases hall : ∀ front l, front ++ [l] <+: all → P front l
    · refine ⟨all, last, [], rfl, hall, fun hlast => h fun front l hpre => ?_⟩
      rcases List.prefix_concat_iff.mp hpre with he | hpre
      · obtain ⟨rfl, hsame⟩ := List.append_inj' he rfl
        rwa [(List.cons.inj hsame).1]
      · exact hall front l hpre
    · obtain ⟨front, l, back, rfl, hbefore, hnot⟩ := ih hall
      exact ⟨front, l, back ++ [last], by simp, hbefore, hnot⟩

/-- A body that differs at a place from an earlier byte of its command. -/
theorem exists_telling_body (header : Bytes) (n j k : Nat) :
    ∃ body : Bytes, body.length = n ∧ 0 ∉ body ∧
      (j < header.length + k → k < n → (header ++ body)[j]? ≠ body[k]?) := by
  obtain ⟨c, hc, hzero⟩ : ∃ c : UInt8, (header ++ List.replicate n 1)[j]? ≠ some c ∧ c ≠ 0 := by
    by_cases hone : (header ++ List.replicate n 1)[j]? = some 1
    · exact ⟨2, by rw [hone]; decide, by decide⟩
    · exact ⟨1, hone, by decide⟩
  refine ⟨(List.replicate n 1).set k c, by simp, ?_, fun hj hk => ?_⟩
  · intro hmem
    rcases List.mem_or_eq_of_mem_set hmem with hmem | he
    · exact absurd (List.eq_of_mem_replicate hmem) (by decide)
    · exact hzero he.symm
  · have hsame : (header ++ (List.replicate n 1).set k c)[j]? = (header ++ List.replicate n 1)[j]? := by
      by_cases hlt : j < header.length
      · rw [List.getElem?_append_left hlt, List.getElem?_append_left hlt]
      · rw [List.getElem?_append_right (by omega), List.getElem?_append_right (by omega),
          List.getElem?_set_ne (by omega)]
    rw [hsame, List.getElem?_set_self (by simpa using hk)]
    exact hc

/-- A command cut into pieces of these lengths. -/
theorem cut_encode {q : Request} (hb : q.body ≠ []) {lengths : List Nat}
    (hsum : lengths.sum = q.header.length + q.body.length + 2) :
    (lengths.splitLengths q.encode).flatten = q.encode ∧
      (lengths.splitLengths q.encode).map List.length = lengths := by
  have hlength : q.encode.length = lengths.sum := by
    rw [hsum, Request.encode, List.length_append, Request.payload_length hb, Nat.add_assoc]
  exact ⟨List.flatten_splitLengths _ _ (Nat.le_of_eq hlength),
    List.map_splitLengths_length _ _ (Nat.le_of_eq hlength.symm)⟩

theorem mem_reads {lengths : List Nat} (hlengths : ∀ l ∈ lengths, 1 ≤ l ∧ l ≤ bufSize)
    {reads : List Bytes} (hmap : reads.map List.length = lengths) :
    ∀ r ∈ reads, r ≠ [] ∧ r.length ≤ bufSize := by
  intro r hr
  have hr' := hlengths r.length (hmap ▸ List.mem_map_of_mem hr)
  exact ⟨List.length_pos_iff.mp hr'.1, hr'.2⟩

/-- The same with the reads given by their lengths: what the first one that does
not fit would leave stands at this place of the command. -/
theorem not_intact_of_lengths (server : Server) {backend : Backend}
    (sends : ∀ log, 0 < backend.send log) (negative : Bool) {q : Request} (hq : q.Framed)
    (hb : q.body ≠ []) (hn : q.body.length + 2 < 2 ^ 32) (hz : 0 ∉ q.body) {reads : List Bytes}
    {front back : List Nat} {l : Nat} (hstream : reads.flatten = q.encode)
    (hreads : ∀ r ∈ reads, r ≠ [] ∧ r.length ≤ bufSize)
    (hmap : reads.map List.length = front ++ l :: back)
    (hfits : ∀ front' l', front' ++ [l'] <+: front →
      Fits q.header (q.header.length + q.body.length) front' l')
    (hunfit : ¬ Fits q.header (q.header.length + q.body.length) front l)
    (htells : front.dropLast.sum + l < q.header.length + (front.sum + l - q.header.length) →
      front.sum + l - q.header.length < q.body.length →
      (q.header ++ q.body)[front.dropLast.sum + l]? ≠ q.body[front.sum + l - q.header.length]?) :
    ¬ BodyIntact server backend negative q reads := by
  obtain ⟨before, rest, rfl, rfl, hrest⟩ := List.map_eq_append_iff.mp hmap
  obtain ⟨data, later, rfl, rfl, rfl⟩ := List.map_eq_cons_iff.mp hrest
  have hcut : q.encode = (before ++ [data]).flatten ++ later.flatten := by
    rw [← hstream]
    simp
  refine not_intact_of_unfit server sends negative hq hb hn (Request.no_zero_payload hb hz) hcut hreads hfits
    hunfit fun held hheld got hsplit hlong => ?_
  obtain ⟨before, rfl⟩ := List.getLast?_eq_some_iff.mp hheld
  have hpos := List.length_pos_iff.mpr (hreads data (by simp)).1
  have hlast : ((before ++ [held]).map List.length).dropLast.sum = before.flatten.length := by
    rw [List.map_append, List.map_singleton, List.dropLast_concat, List.length_flatten]
  have hfront : ((before ++ [held]).map List.length).sum = before.flatten.length + held.length := by
    rw [← List.length_flatten]
    simp
  have hgot := congrArg List.length hsplit
  rw [List.length_append, List.flatten_append, List.length_append, List.length_flatten, hfront,
    List.flatten_singleton] at hgot
  rw [hlast, hfront, hgot, Nat.add_sub_cancel_left] at htells
  by_cases hin : got.length < q.body.length
  · have hplace : held[data.length]? = (q.header ++ q.body)[before.flatten.length + data.length]? := by
      have hencode : before.flatten ++ (held ++ (data ++ later.flatten)) =
          q.header ++ q.body ++ [cr, lf] := by
        rw [List.append_assoc, ← Request.payload_eq hb]
        change _ = q.encode
        simpa using hstream
      have hline : (q.header ++ q.body ++ [cr, lf])[before.flatten.length + data.length]? =
          (q.header ++ q.body)[before.flatten.length + data.length]? :=
        List.getElem?_append_left (by rw [List.length_append]; omega)
      rw [← hline, ← hencode, List.getElem?_append_right (by omega), Nat.add_sub_cancel_left,
        List.getElem?_append_left hlong]
    rw [hplace]
    exact htells (by omega) hin
  · rw [List.getElem?_eq_none (Nat.le_of_not_lt hin), List.getElem?_eq_getElem hlong]
    simp

/-- Some body does not survive a way to cut its command that does not fit. -/
theorem exists_not_intact (server : Server) {backend : Backend}
    (sends : ∀ log, 0 < backend.send log) (negative : Bool) {name key : Bytes} {kind : InsertKind}
    (hname : (name, kind) ∈ putNames) (hkey : space ∉ key) (flags : UInt32) (exptime : Int32)
    {n : Nat} (hpos : 1 ≤ n) (hn : n + 2 < 2 ^ 32) {lengths : List Nat}
    (hlengths : ∀ l ∈ lengths, 1 ≤ l ∧ l ≤ bufSize)
    (hsum : lengths.sum = (putHeader name key flags exptime (UInt32.ofNat n)).length + n + 2)
    (hunfit : ¬ ∀ front l, front ++ [l] <+: lengths →
      Fits (putHeader name key flags exptime (UInt32.ofNat n))
        ((putHeader name key flags exptime (UInt32.ofNat n)).length + n) front l) :
    ∃ body : Bytes, body.length = n ∧ 0 ∉ body ∧
      ¬ BodyIntact server backend negative (.put name kind key flags exptime body)
        (lengths.splitLengths (Request.put name kind key flags exptime body).encode) := by
  obtain ⟨front, l, back, rfl, hbefore, hnot⟩ := exists_first_not hunfit
  obtain ⟨body, rfl, hz, htells⟩ := exists_telling_body
    (putHeader name key flags exptime (UInt32.ofNat n)) n (front.dropLast.sum + l)
    (front.sum + l - (putHeader name key flags exptime (UInt32.ofNat n)).length)
  refine ⟨body, rfl, hz, ?_⟩
  have hframed : (Request.put name kind key flags exptime body).Framed := ⟨hname, hkey, by omega⟩
  have hb : (Request.put name kind key flags exptime body).body ≠ [] := List.length_pos_iff.mp hpos
  obtain ⟨hflat, hmap⟩ := cut_encode hb hsum
  exact not_intact_of_lengths server sends negative hframed hb hn hz hflat (mem_reads hlengths hmap)
    hmap hbefore hnot htells

/-- For every command that stores and every way to cut it into reads: a body with
a zero, or so long that the sum in the loop condition wraps, never arrives; and
the others of its length all do if and only if the reads fit. -/
theorem body_intact_iff (server : Server) {backend : Backend}
    (sends : ∀ log, 0 < backend.send log) (negative : Bool) {name key : Bytes} {kind : InsertKind}
    (hname : (name, kind) ∈ putNames) (hkey : space ∉ key) (flags : UInt32) (exptime : Int32)
    {n : Nat} (hpos : 1 ≤ n) (hn : n < 2 ^ 32) {lengths : List Nat}
    (hlengths : ∀ l ∈ lengths, 1 ≤ l ∧ l ≤ bufSize)
    (hsum : lengths.sum = (putHeader name key flags exptime (UInt32.ofNat n)).length + n + 2) :
    let intact (body : Bytes) : Prop :=
      BodyIntact server backend negative (.put name kind key flags exptime body)
        (lengths.splitLengths (Request.put name kind key flags exptime body).encode)
    let header := putHeader name key flags exptime (UInt32.ofNat n)
    (∀ body : Bytes, body.length = n → intact body → 0 ∉ body ∧ n + 2 < 2 ^ 32) ∧
      ((∀ body : Bytes, body.length = n → 0 ∉ body → intact body) ↔
        n + 2 < 2 ^ 32 ∧
          ∀ front l, front ++ [l] <+: lengths → Fits header (header.length + n) front l) := by
  intro intact header
  have hclean : ∀ body : Bytes, body.length = n → intact body → 0 ∉ body ∧ n + 2 < 2 ^ 32 := by
    rintro body rfl ⟨t, ht, hexec⟩
    exact (Handler.after_plain sends ht).calls _ (by rw [hexec]; exact List.mem_cons_self)
  refine ⟨hclean, fun hall => ?_, fun ⟨hsmall, hfits⟩ body hlen hz => ?_⟩
  · have hzero : (0 : UInt8) ∉ List.replicate n 1 := by simp
    have hsmall := (hclean _ List.length_replicate (hall _ List.length_replicate hzero)).2
    refine ⟨hsmall, ?_⟩
    by_contra hunfit
    obtain ⟨body, hlen, hz, hnot⟩ := exists_not_intact server sends negative hname hkey flags exptime
      hpos hsmall hlengths hsum hunfit
    exact hnot (hall body hlen hz)
  · subst hlen
    have hframed : (Request.put name kind key flags exptime body).Framed := ⟨hname, hkey, hn⟩
    have hb : (Request.put name kind key flags exptime body).body ≠ [] :=
      List.length_pos_iff.mp hpos
    obtain ⟨hflat, hmap⟩ := cut_encode hb hsum
    refine intact_of_fits server sends negative hframed hb hsmall hz hflat
      (mem_reads hlengths hmap) ?_
    rw [hmap]
    exact hfits

theorem body_intact_iff_cut_set :
    BodyIntact .nonBlocking .working false (.put (text "set") .set (text "k") 0 0 (text "hello"))
      [text "set k 0 0 5\r", text "\nh", text "ell", text "o\r\n"] := by
  have hname : (text "set", InsertKind.set) ∈ putNames := by decide
  have hlengths : ∀ l ∈ [12, 2, 3, 3], 1 ≤ l ∧ l ≤ bufSize := by decide
  have hall := (body_intact_iff .nonBlocking working_sends false hname
    (show space ∉ text "k" by decide) 0 0 (show 1 ≤ 5 by decide) (by decide) hlengths (by decide)).2
  have hcut : [12, 2, 3, 3].splitLengths
      (Request.put (text "set") .set (text "k") 0 0 (text "hello")).encode =
        [text "set k 0 0 5\r", text "\nh", text "ell", text "o\r\n"] := by decide
  rw [← hcut]
  exact hall.mpr ⟨by decide, forall_prefix_of_take (by decide)⟩ _ (by decide) (by decide)

/-- A read in the body that is shorter than the header's: the rest of the header,
still in the buffer, is taken for the body. -/
theorem short_read_spoils_body :
    let q : Request := .put (text "set") .set (text "k") 0 0 (text "hello")
    let reads := [text "set k 0 0 5\r\n", text "hel", text "lo\r\n"]
    reads.flatten = q.encode ∧
      ((Handler.fresh false).after .blocking .working (reads.map Input.read)).map Handler.executed =
        some [(.insert .set ⟨text "k", 0, 0⟩, text "hel k")] ∧
      ¬ BodyIntact .blocking .working false q reads ∧
      ¬ BodyIntact .nonBlocking .working false q reads := by
  intro q reads
  have hcalls : ∀ server, ((Handler.fresh false).after server .working
      (reads.map Input.read)).map Handler.executed =
        some [(.insert .set ⟨text "k", 0, 0⟩, text "hel k")] := by
    intro server
    cases server <;> decide
  have hnot : ∀ server, ¬ BodyIntact server .working false q reads := by
    rintro server ⟨t, ht, hexec⟩
    have := hcalls server
    rw [ht, Option.map_some, hexec] at this
    exact absurd this (by decide)
  exact ⟨by decide, hcalls .blocking, hnot .blocking, hnot .nonBlocking⟩

end Afina
