import TestScript.Yaml.Cursor

/-!
# Places in a text

Reading on from an origin, such as the start of a text, one comes from place to place. `Reaches`
says which position a place has and what is left of the text there: a line ends at a line feed, at a
carriage return, or at the two of them in that order. This is said apart from any reader of tokens.

-/

namespace TestScript

theorem Position.le_refl (p : Position) : p ≤ p := by
  rw [le_iff]
  omega

theorem Position.le_trans {p q r : Position} (hpq : p ≤ q) (hqr : q ≤ r) : p ≤ r := by
  rw [le_iff] at *
  omega

theorem Position.line_le {p q : Position} (h : p ≤ q) : p.line ≤ q.line := by
  rw [le_iff] at h
  omega

theorem Position.le_antisymm {p q : Position} (hpq : p ≤ q) (hqp : q ≤ p) : p = q := by
  rw [le_iff] at *
  obtain ⟨pl, pc⟩ := p
  obtain ⟨ql, qc⟩ := q
  simp only [Position.mk.injEq] at *
  omega

namespace Yaml

/-! ## Reading on -/

/-- Reading on from an origin one comes to a position, and this is left of the text there. -/
inductive Reaches (origin : Cursor) : Position → List Char → Prop
  | start : Reaches origin origin.position origin.rest
  | char {p : Position} {c : Char} {cs : List Char} (h : Reaches origin p (c :: cs))
    (hc : isBreak c = false) : Reaches origin ⟨p.line, p.column + 1⟩ cs
  | lineFeed {p : Position} {cs : List Char} (h : Reaches origin p ('\n' :: cs)) :
    Reaches origin ⟨p.line + 1, 0⟩ cs
  | returnLineFeed {p : Position} {cs : List Char} (h : Reaches origin p ('\r' :: '\n' :: cs)) :
    Reaches origin ⟨p.line + 1, 0⟩ cs
  | loneReturn {p : Position} {cs : List Char} (h : Reaches origin p ('\r' :: cs))
    (hcs : cs.head? ≠ some '\n') : Reaches origin ⟨p.line + 1, 0⟩ cs

variable {origin : Cursor} {rest : List Char} {p q : Position}

/-- What is reached from a place that is reached is reached itself. -/
theorem Reaches.trans {c : Cursor} (h : Reaches origin c.position c.rest) (h' : Reaches c p rest) :
    Reaches origin p rest := by
  induction h' with
  | start => exact h
  | char h' hc ih => exact ih.char hc
  | lineFeed h' ih => exact ih.lineFeed
  | returnLineFeed h' ih => exact ih.returnLineFeed
  | loneReturn h' hcs ih => exact ih.loneReturn hcs

theorem Reaches.suffix (h : Reaches origin p rest) : rest <:+ origin.rest := by
  induction h with
  | start => exact List.suffix_rfl
  | char h hc ih => exact (List.suffix_cons _ _).trans ih
  | lineFeed h ih => exact (List.suffix_cons _ _).trans ih
  | returnLineFeed h ih => exact (List.suffix_cons _ _).trans ((List.suffix_cons _ _).trans ih)
  | loneReturn h hcs ih => exact (List.suffix_cons _ _).trans ih

/-- Along a line the column counts the characters. -/
theorem Reaches.advance {cs : List Char} (h : Reaches origin p (cs ++ rest))
    (hcs : ∀ c ∈ cs, isBreak c = false) : Reaches origin ⟨p.line, p.column + cs.length⟩ rest := by
  induction cs generalizing p with
  | nil => exact h
  | cons c cs ih =>
    have hc := h.char (hcs c List.mem_cons_self)
    have hrest := ih hc fun d hd => hcs d (List.mem_cons_of_mem _ hd)
    rwa [List.length_cons, Nat.add_comm cs.length, ← Nat.add_assoc]

/-- Reading goes on. -/
theorem Reaches.le (h : Reaches origin p rest) : origin.position ≤ p := by
  have hstep : ∀ {p q : Position}, origin.position ≤ p →
      p.line < q.line ∨ p.line = q.line ∧ p.column ≤ q.column → origin.position ≤ q :=
    fun h h' => Position.le_trans h h'
  induction h with
  | start => exact Position.le_refl _
  | char h hc ih => exact hstep ih (.inr ⟨rfl, Nat.le_succ _⟩)
  | lineFeed h ih => exact hstep ih (.inl (Nat.lt_succ_self _))
  | returnLineFeed h ih => exact hstep ih (.inl (Nat.lt_succ_self _))
  | loneReturn h hcs ih => exact hstep ih (.inl (Nat.lt_succ_self _))

/-- What stands behind the end of the part that is read changes nothing in front of it. -/
theorem Reaches.append {tail : List Char} (h : Reaches origin p rest)
    (htail : tail.head? ≠ some '\n') :
    Reaches { origin with rest := origin.rest ++ tail } p (rest ++ tail) := by
  induction h with
  | start => exact .start
  | char h hc ih => exact .char ih hc
  | lineFeed h ih => exact .lineFeed ih
  | returnLineFeed h ih => exact .returnLineFeed ih
  | @loneReturn p cs h hcs ih =>
    refine .loneReturn ih ?_
    cases cs with
    | nil => exact htail
    | cons c cs => exact hcs

/-! ## Marks -/

/-- A character that ends no line stands at a position. -/
def StandsAt (origin : Cursor) (p : Position) (c : Char) : Prop :=
  isBreak c = false ∧ ∃ cs, Reaches origin p (c :: cs)

end Yaml
end TestScript
