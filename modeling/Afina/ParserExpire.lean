import Afina.ParserHeaders

namespace Afina

open Scan Decimal

namespace Exptime

/-- Adding the digits up gives the number itself when there is one digit only. -/
theorem sum_ofInt32_eq_iff (t : Int32) :
    Int32.ofInt (ofInt32 t).sum = t ↔ -9 ≤ t.toInt ∧ t.toInt ≤ 9 := by
  obtain ⟨hlo, hhi⟩ := inInt32_sum_ofInt32 t
  have hsum : Int32.ofInt (ofInt32 t).sum = t ↔ (ofInt32 t).sum = t.toInt := by
    rw [← Int32.toInt_inj, Int32.toInt_ofInt_of_le (by omega) (by omega)]
  have habs : (ofInt32 t).sum = t.toInt ↔
      digitSum (render t.toInt.natAbs) = t.toInt.natAbs := by
    simp only [sum, signed, ofInt32, decide_eq_true_eq]
    split <;> omega
  rw [hsum, habs, digitSum_render_eq_iff]
  omega

end Exptime

namespace Parser

theorem throws_putLine (negative : Bool) (l : PutLine) {e : Exptime} (he : ¬ InInt32 e.sum) :
    (fresh negative).Throws (l.header e.text) .expireTimeOverflow := by
  obtain ⟨c, ds, n, htext, hds, hsum, hn, hfirst⟩ :=
    reads_exptime_start (p := atExptime l) rfl rfl rfl rfl e
  have hdigits := digits_text
    (p := { atExptime l with exprtime := Int32.ofInt (signed e.negative n), negative := e.negative,
                             state := .spExprTime }) rfl rfl rfl hn hds
  rw [hsum] at hdigits
  rcases hdigits with ⟨_, hthrows⟩ | ⟨hin, _⟩
  · have hheader : l.header e.text =
        l.start ++ [c] ++ (ds ++ ([space] ++ (l.bytes.digits ++ [cr]) ++ [lf])) := by
      simp [PutLine.header, htext]
    rw [hheader]
    exact .of_reads ((reads_putStart negative l).trans hfirst) (hthrows.append _)
  · exact absurd hin he

end Parser

/-- The command that a header builds carries this expiry time, and all the other
fields as the client wrote them. -/
def PutLine.Carries (l : PutLine) (negative : Bool) (exptime : Bytes) (t : Int32) : Prop :=
  ∃ p, (Parser.fresh negative).parse (l.header exptime) = .returned p (l.header exptime).length ∧
    p.parseComplete = true ∧
    ∀ b, p.build b =
      some (.ok (some (.insert l.kind ⟨l.key, l.flags.toUInt32, t⟩)), l.bytes.toUInt32)

theorem PutLine.build_parsed {l : PutLine} {p : Parser} (hs : p.state = .sLF)
    (hn : p.name = l.name) (hk : p.keys = [l.key]) (b : UInt32) :
    p.build b = some (.ok (some (.insert l.kind ⟨l.key, p.flags, p.exprtime⟩)), p.bytes) := by
  have hname := l.named
  simp only [putNames, List.mem_cons, Prod.mk.injEq, List.not_mem_nil, or_false] at hname
  rcases hname with ⟨hset, hkind⟩ | ⟨hadd, hkind⟩ | ⟨happend, hkind⟩
  · simp [Parser.build, Parser.buildInsert, hs, hn, hk, hset, hkind]
  · simp only [Parser.build, Parser.buildInsert, hs, hn, hk, hadd, hkind, if_true]
    rfl
  · simp only [Parser.build, Parser.buildInsert, hs, hn, hk, happend, hkind, if_true]
    rfl

theorem PutLine.carries_iff (l : PutLine) (negative : Bool) {e : Exptime} (he : InInt32 e.sum)
    (t : Int32) : l.Carries negative e.text t ↔ Int32.ofInt e.sum = t := by
  have hread := (Parser.reads_putLine negative l he).scan_complete rfl []
  rw [List.append_nil] at hread
  constructor
  · rintro ⟨p, hp, _, hbuild⟩
    cases hread.symm.trans hp
    have hb := (l.build_parsed rfl rfl rfl 0).symm.trans (hbuild 0)
    simp only [Option.some.injEq, Prod.mk.injEq, Except.ok.injEq, Command.insert.injEq,
      InsertCommand.mk.injEq] at hb
    exact hb.1.2.2.2
  · intro ht
    exact ⟨_, hread, rfl, fun b => ht ▸ l.build_parsed rfl rfl rfl b⟩

/-- The digits of an expiry time are added up without weights. So the time comes
back for the numbers of one digit only, and a number too large for 32 bits is
noticed exactly when the sum of its digits is too large as well. -/
theorem expiry_round_trip (negative : Bool) (l : PutLine) :
    (∀ t : Int32, l.Carries negative (renderInt t.toInt) t ↔ -9 ≤ t.toInt ∧ t.toInt ≤ 9) ∧
    (∀ e : Exptime, ¬ InInt32 e.value →
      ((∃ p error pos, (Parser.fresh negative).parse (l.header e.text) = .threw p error pos) ↔
        ¬ InInt32 e.sum)) := by
  constructor
  · intro t
    rw [← Exptime.text_ofInt32, l.carries_iff negative (Exptime.inInt32_sum_ofInt32 t),
      Exptime.sum_ofInt32_eq_iff]
  · intro e _
    constructor
    · rintro ⟨p, error, pos, hthrew⟩ hin
      have hread := (Parser.reads_putLine negative l hin).scan_complete rfl []
      rw [List.append_nil] at hread
      exact absurd (hread.symm.trans hthrew) (by simp)
    · intro hout
      obtain ⟨p, pos, hthrew⟩ := Parser.throws_putLine negative l hout
      exact ⟨p, _, pos, hthrew⟩

theorem expiry_round_trip_six :
    ∃ l : PutLine, l.header (text "-6") = text "add a 010 -6 1\r\n" ∧
      l.Carries true (renderInt (-6 : Int32).toInt) (-6) ∧
      ∃ e : Exptime, ¬ InInt32 e.value ∧ InInt32 e.sum ∧
        ¬ ∃ p error pos, (Parser.fresh true).parse (l.header e.text) = .threw p error pos := by
  refine ⟨⟨text "add", .add, by decide, text "a", by decide, ⟨text "010", by decide,
    by decide +kernel, by decide⟩, .ofUInt32 1⟩, by decide, ?_, ?_⟩
  · exact ((expiry_round_trip true _).1 (-6)).mpr (by decide)
  · refine ⟨⟨false, text "2147483648", by decide, by decide +kernel⟩, by decide, by decide, ?_⟩
    intro hthrew
    exact ((expiry_round_trip true _).2 _ (by decide)).mp hthrew (by decide)

/-- Twelve seconds become three, and a number of eleven digits passes. -/
theorem expiry_twelve :
    ∃ l : PutLine, l.header (renderInt (12 : Int32).toInt) = text "set k 0 12 1\r\n" ∧
      l.Carries false (renderInt (12 : Int32).toInt) 3 ∧
      ¬ l.Carries false (renderInt (12 : Int32).toInt) 12 ∧
      ∃ e : Exptime, e.text = text "99999999999" ∧ ¬ InInt32 e.value ∧
        ∃ p, (Parser.fresh false).parse (l.header e.text) = .returned p (l.header e.text).length ∧
          p.parseComplete = true := by
  let l : PutLine := ⟨text "set", .set, by decide, text "k", by decide, .ofUInt32 0, .ofUInt32 1⟩
  have hcarries := l.carries_iff false (Exptime.inInt32_sum_ofInt32 12)
  rw [Exptime.text_ofInt32] at hcarries
  refine ⟨l, by decide, (hcarries 3).mpr (by decide), fun h => ?_, ?_⟩
  · exact absurd ((hcarries 12).mp h) (by decide)
  · refine ⟨⟨false, text "99999999999", by decide, by decide +kernel⟩, rfl, by decide,
      ⟨.sLF, text "set", [text "k"], 0, 99, 1, false, text "k", true⟩, by decide, rfl⟩

end Afina
