import TestScript.Proofs.Yaml.FirstLines

/-!
# Marks

What stands in the text where a token or an event is marked: a scalar begins there, a list begins
there, or a dash stands in front of it. Of mappings and keys nothing is said here; where they are
marked depends on the tokens behind them.
-/

namespace TestScript.Yaml

variable {origin c c' : Cursor}

/-! ## Marks -/

/-- A scalar begins at a mark: the rest of the line opens it. A block scalar without a line of text
is marked in front of anything. -/
def Begins (origin : Cursor) (p : Position) (style : Style) (content : String) : Prop :=
  ∃ rest, Reaches origin p rest ∧ firstLine rest ≠ [] ∧
    (Opens style content.toList (firstLine rest) ∨ IsEmptyBlock style content.toList)

/-- Blanks, and perhaps a comment behind them. -/
def IsTrailing (gap : List Char) : Prop :=
  ∃ blanks comment, gap = blanks ++ comment ∧ IsBlanks blanks ∧
    (∀ d ∈ comment, isLineEnd d = false) ∧ (comment = [] ∨ comment.head? = some '#')

/-- A dash stands in front of a mark, and between them only blanks, and perhaps a comment. -/
def IsBehindDash (origin : Cursor) (p : Position) : Prop :=
  ∃ q gap rest, Reaches origin q ('-' :: (gap ++ rest)) ∧ IsTrailing gap ∧
    p = ⟨q.line, q.column + 1 + gap.length⟩

/-- What stands at the mark of a token. -/
def Token.IsMarked (origin : Cursor) (t : Token) : Prop :=
  match t.kind with
  | .scalar style content => Begins origin t.position style content
  | .flowSequenceStart => StandsAt origin t.position '['
  | .blockSequenceStart => StandsAt origin t.position '-'
  | .blockEntry => IsBehindDash origin t.position
  | _ => True

theorem IsTrailing.isLineEnd {gap : List Char} (h : IsTrailing gap) {d : Char} (hd : d ∈ gap) :
    isLineEnd d = false := by
  obtain ⟨blanks, comment, rfl, hblanks, hcomment, -⟩ := h
  rcases List.mem_append.1 hd with hd | hd
  · exact isLineEnd_of_isBlank (hblanks d hd)
  · exact hcomment d hd

/-- In front of a character of a line a cursor can be shown. -/
theorem Cursor.Agrees.standsAt (h : c.Agrees origin) (hnext : isLineEnd c.next = false) :
    StandsAt origin c.position c.next := by
  obtain ⟨cs, hrest⟩ := rest_eq_of_next (ne_nul_of_isLineEnd hnext)
  exact ⟨isBreak_of_isLineEnd hnext, cs, hrest ▸ h⟩

/-! ## Behind a token -/

/-- Between two cursors stand only blanks, and perhaps a comment. -/
structure Cursor.Trails (c' c : Cursor) : Prop where
  agrees : c'.Agrees c
  exists_gap : ∃ gap, IsTrailing gap ∧ c.rest = gap ++ c'.rest ∧
    c'.position = ⟨c.line, c.column + gap.length⟩

namespace Cursor

/-- A run of characters is what has been passed. -/
theorem rest_advance_takeWhile (c : Cursor) (p : Char → Bool) :
    c.rest = c.rest.takeWhile p ++ (c.advance (c.rest.takeWhile p).length).rest := by
  obtain ⟨tail, htail⟩ := List.takeWhile_prefix p (l := c.rest)
  have hdrop : c.rest.drop (c.rest.takeWhile p).length = tail :=
    (congrArg (List.drop _) htail.symm).trans List.drop_left
  exact htail.symm.trans (congrArg (c.rest.takeWhile p ++ ·) hdrop.symm)

theorem skipLine_eq (c : Cursor) : c.rest = firstLine c.rest ++ c.skipLine.rest ∧
    c.skipLine.position = ⟨c.line, c.column + (firstLine c.rest).length⟩ := by
  rw [skipLine, span]
  split
  · next hempty =>
    have hnil : firstLine c.rest = [] := List.isEmpty_iff.1 hempty
    rw [hnil]
    exact ⟨rfl, rfl⟩
  · exact ⟨c.rest_advance_takeWhile _, rfl⟩

theorem skipTrailing_trails (c : Cursor) : Yields c.skipTrailing fun r => r.2.2.Trails c := by
  have hrest := c.rest_advance_takeWhile isBlank
  have hblanks : IsBlanks (c.rest.takeWhile isBlank) := fun d hd => List.mem_takeWhile_imp hd
  refine (c.skipTrailing_yields.and ?_).mono fun r hr => ⟨hr.1.1, hr.2⟩
  rw [skipTrailing]
  generalize c.rest.takeWhile isBlank = blanks at hrest hblanks ⊢
  split
  · next hhash =>
    split
    · exact yields_throw
    · obtain ⟨hline, hposition⟩ := (c.skipBlanks blanks.length).skipLine_eq
      have hhead : (firstLine (c.skipBlanks blanks.length).rest).head? = some '#' := by
        rw [firstLine_of_next (by rw [hhash]; rfl), hhash]
        rfl
      refine yields_pure ⟨blanks ++ firstLine (c.skipBlanks blanks.length).rest, ?_, ?_, ?_⟩
      · refine ⟨blanks, _, rfl, hblanks, fun d hd => ?_, .inr hhead⟩
        simpa using List.mem_takeWhile_imp hd
      · rw [List.append_assoc, ← hline]
        exact hrest
      · rw [hposition, List.length_append, ← Nat.add_assoc]
        rfl
  · have htrailing : IsTrailing blanks :=
      ⟨blanks, [], by simp, hblanks, List.forall_mem_nil _, .inl rfl⟩
    exact yields_pure ⟨blanks, htrailing, hrest, rfl⟩

end Cursor

end TestScript.Yaml
