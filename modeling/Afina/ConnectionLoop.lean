import Afina.ConnectionLog

namespace Afina

namespace Session

variable {uv : Libuv}

/-- The loop that starts in the first session calls `Execute` in the second. -/
def Calls (uv : Libuv) (s m : Session) : Prop :=
  ∃ t, Iterates uv s t ∧ t.conn.inputParsed < t.conn.inputUsed ∧
    t.branch = some (.normally m) ∧ m.conn.state = .sExecute

theorem readLoop_normally {n : Nat} {s t : Session} (h : readLoop uv n s = .ended (.normally t)) :
    Iterates uv s t ∧ ¬ t.conn.inputParsed < t.conn.inputUsed := by
  obtain ⟨u, hiter, ⟨he, hidle⟩ | ⟨v, what, _, _, he⟩⟩ := readLoop_iterates h
  · cases he
    exact ⟨hiter, hidle⟩
  · cases he

theorem Iterates.first {s t : Session} (h : Iterates uv s t) :
    s = t ∨ ∃ u, s.conn.inputParsed < s.conn.inputUsed ∧ s.pass uv = some (.normally u) ∧
      Iterates uv u t := by
  induction h with
  | start => exact Or.inl rfl
  | @next v w hv hlt hp ih =>
    rcases ih with rfl | ⟨u, hlt', hp', hu⟩
    · exact Or.inr ⟨w, hlt, hp, .start⟩
    · exact Or.inr ⟨u, hlt', hp', .next hu hlt hp⟩

theorem Iterates.eq_of_idle {s t : Session} (h : Iterates uv s t)
    (hidle : ¬ s.conn.inputParsed < s.conn.inputUsed) : t = s := by
  rcases h.first with rfl | ⟨u, hlt, _⟩
  · rfl
  · exact absurd hlt hidle

theorem calls_iff {s m : Session} :
    Calls uv s m ↔ s.conn.inputParsed < s.conn.inputUsed ∧
      ((s.branch = some (.normally m) ∧ m.conn.state = .sExecute) ∨
        ∃ t, s.pass uv = some (.normally t) ∧ Calls uv t m) := by
  constructor
  · rintro ⟨t, ht, hlt, hbranch, hstate⟩
    rcases ht.first with rfl | ⟨u, hlt', hp, hu⟩
    · exact ⟨hlt, Or.inl ⟨hbranch, hstate⟩⟩
    · exact ⟨hlt', Or.inr ⟨u, hp, t, hu, hlt, hbranch, hstate⟩⟩
  · rintro ⟨hlt, ⟨hbranch, hstate⟩ | ⟨u, hp, t, ht, hlt', hbranch, hstate⟩⟩
    · exact ⟨s, .start, hlt, hbranch, hstate⟩
    · exact ⟨t, ht.head hlt hp, hlt', hbranch, hstate⟩

end Session

end Afina
