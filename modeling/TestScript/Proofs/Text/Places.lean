import Mathlib.Data.List.Infix
import TestScript.Proofs.Yaml.Scanning
import TestScript.Text.Lines

/-!
# Places on the lines of a text

The reader of YAML ends a line at a carriage return, too, where `Text.lines` ends one only at a line
feed. In a text without a lone carriage return the two agree: the line number of a place is that of
a line, and the column counts the characters in front of the place on that line.
-/

namespace TestScript.Text

open Yaml (Cursor Reaches StandsAt IsBehindDash IsTrailing firstLine isBreak isLineEnd)

/-- Each carriage return has a line feed behind it. -/
def NoLoneReturn (cs : List Char) : Prop :=
  ∀ behind, '\r' :: behind <:+ cs → behind.head? = some '\n'

instance (cs : List Char) : Decidable (NoLoneReturn cs) :=
  decidable_of_iff (∀ t ∈ cs.tails, t.head? = some '\r' → t[1]? = some '\n') <| by
    simp only [NoLoneReturn, List.mem_tails]
    constructor
    · intro h behind hbehind
      simpa [List.head?_eq_getElem?] using h _ hbehind rfl
    · rintro h (_ | ⟨c, t⟩) ht hc
      · cases hc
      · cases hc
        simpa [List.head?_eq_getElem?] using h t ht

/-- A line of a text in two parts: what stands in front of a position, and what stands behind it. -/
structure IsLineAt (source : String) (p : Position) (front behind : List Char) : Prop where
  line : (lines source)[p.line]? = some (String.ofList (front ++ behind))
  column : front.length = p.column

/-! ## Lines in front of a place -/

theorem linesOf_cons {c : Char} {cs : List Char} (hc : isBreak c = false) :
    linesOf (c :: cs) = consFirst c (linesOf cs) := by
  refine linesOf.eq_4 c cs ?_ ?_
  · rintro rfl
    cases hc
  · rintro cs' rfl
    cases hc

theorem linesOf_ne_nil {cs : List Char} (h : cs ≠ []) : linesOf cs ≠ [] := by
  fun_cases linesOf cs with
  | case1 => exact absurd rfl h
  | case2 | case3 => exact List.cons_ne_nil _ _
  | case4 c cs => cases linesOf cs <;> exact List.cons_ne_nil _ _

/-- In front of the first line feed stands what the reader sees of the line. -/
theorem takeWhile_headD_linesOf {cs : List Char} (h : NoLoneReturn cs) :
    ((linesOf cs).headD []).takeWhile (· ≠ '\x00') = firstLine cs := by
  fun_induction linesOf cs with
  | case1 => rfl
  | case2 | case3 => rfl
  | case4 c cs hfeed hreturn ih =>
    have hbreak : isBreak c = false := by
      rw [isBreak, Bool.or_eq_false_iff, decide_eq_false_iff_not, decide_eq_false_iff_not]
      refine ⟨hfeed, ?_⟩
      rintro rfl
      obtain ⟨cs', rfl⟩ := List.head?_eq_some_iff.1 (h cs List.suffix_rfl)
      exact hreturn cs' rfl rfl
    have hhead : (consFirst c (linesOf cs)).headD [] = c :: (linesOf cs).headD [] := by
      cases linesOf cs <;> rfl
    have hcs : NoLoneReturn cs := fun behind hsuffix =>
      h behind (hsuffix.trans (List.suffix_cons c cs))
    rw [hhead]
    by_cases hnul : c = '\x00'
    · rw [hnul]
      rfl
    · rw [List.takeWhile_cons_of_pos (by simpa using hnul), ih hcs, Yaml.firstLine_cons]
      simp [isLineEnd, hbreak, hnul]

/-- Characters in front of the first line belong to it. -/
theorem foldr_consFirst {front : List Char} {ls : List (List Char)} (h : front ≠ [] ∨ ls ≠ []) :
    front.foldr consFirst ls = (front ++ ls.headD []) :: ls.tail := by
  induction front with
  | nil =>
    cases ls with
    | nil => simp at h
    | cons l ls => rfl
  | cons c front ih =>
    rw [List.foldr_cons]
    by_cases hrest : front ≠ [] ∨ ls ≠ []
    · rw [ih hrest]
      rfl
    · obtain ⟨rfl, rfl⟩ : front = [] ∧ ls = [] := by simpa using hrest
      rfl

/-- In front of a place stand whole lines, and a part of its own line. -/
theorem exists_linesOf_of_reaches {cs rest : List Char} {p : Position}
    (hreturns : NoLoneReturn cs) (h : Reaches { rest := cs } p rest) :
    ∃ (above : List (List Char)) (front : List Char),
      linesOf cs = above ++ front.foldr consFirst (linesOf rest) ∧
      above.length = p.line ∧ front.length = p.column := by
  induction h with
  | start => exact ⟨[], [], rfl, rfl, rfl⟩
  | @char p c cs h hc ih =>
    obtain ⟨above, front, hlines, hline, hcolumn⟩ := ih
    refine ⟨above, front ++ [c], ?_, hline, by simp [hcolumn]⟩
    rw [hlines, linesOf_cons hc, List.foldr_append]
    rfl
  | lineFeed h ih =>
    obtain ⟨above, front, hlines, hline, hcolumn⟩ := ih
    refine ⟨above ++ [front], [], ?_, by simp [hline], rfl⟩
    rw [hlines, linesOf, foldr_consFirst (.inr (by simp))]
    simp
  | returnLineFeed h ih =>
    obtain ⟨above, front, hlines, hline, hcolumn⟩ := ih
    refine ⟨above ++ [front], [], ?_, by simp [hline], rfl⟩
    rw [hlines, linesOf, foldr_consFirst (.inr (by simp))]
    simp
  | loneReturn h hcs ih => exact absurd (hreturns _ h.suffix) hcs

/-- The line of a place, if the line is not empty. -/
theorem exists_isLineAt {source : String} {rest : List Char} {p : Position}
    (hreturns : NoLoneReturn source.toList) (h : Reaches { rest := source.toList } p rest)
    (hline : 0 < p.column ∨ linesOf rest ≠ []) :
    ∃ front, IsLineAt source p front ((linesOf rest).headD []) := by
  obtain ⟨above, front, hlines, habove, hfront⟩ := exists_linesOf_of_reaches hreturns h
  refine ⟨front, ?_, hfront⟩
  have hne : front ≠ [] ∨ linesOf rest ≠ [] := by
    rcases hline with hcolumn | hrest
    · exact .inl (List.ne_nil_of_length_pos (hfront ▸ hcolumn))
    · exact .inr hrest
  rw [lines, hlines, foldr_consFirst hne, ← habove]
  simp

/-! ## Places of a text that is read -/

/-- Only a NUL stands where a text is cut off. -/
theorem reaches_of_ofText {source : String} {rest : List Char} {p : Position}
    (h : Reaches (Cursor.ofText source) p rest) :
    ∃ tail, (∀ c ∈ tail.head?, c = '\x00') ∧
      Reaches { rest := source.toList } p (rest ++ tail) := by
  have htail : ∀ c ∈ (source.toList.dropWhile (· ≠ '\x00')).head?, c = '\x00' := by
    intro c hc
    have hhead := List.head?_dropWhile_not (· ≠ '\x00') source.toList
    rw [Option.mem_def.1 hc] at hhead
    simpa using hhead
  refine ⟨source.toList.dropWhile (· ≠ '\x00'), htail, ?_⟩
  have hfeed : (source.toList.dropWhile (· ≠ '\x00')).head? ≠ some '\n' := by
    intro hfeed
    cases htail _ hfeed
  simpa [Cursor.ofText] using h.append hfeed

theorem firstLine_append_tail {rest tail : List Char} (htail : ∀ c ∈ tail.head?, c = '\x00') :
    firstLine (rest ++ tail) = firstLine rest := by
  cases tail with
  | nil => rw [List.append_nil]
  | cons c tail =>
    obtain rfl := htail c rfl
    induction rest with
    | nil => rfl
    | cons d rest ih =>
      by_cases hd : isLineEnd d = true
      · rw [List.cons_append, firstLine, firstLine, List.takeWhile_cons_of_neg (by simp [hd]),
          List.takeWhile_cons_of_neg (by simp [hd])]
      · rw [Bool.not_eq_true] at hd
        rw [List.cons_append, Yaml.firstLine_cons hd, Yaml.firstLine_cons hd, ih]

/-- A character that ends no line is the first of what the reader sees of its line. -/
theorem firstLine_of_standsAt {source : String} {c : Char} {cs : List Char} {p : Position}
    (h : Reaches (Cursor.ofText source) p (c :: cs)) (hc : isBreak c = false) :
    firstLine (c :: cs) = c :: firstLine cs := by
  have hnul : c ≠ '\x00' := by
    rintro rfl
    exact Yaml.not_mem_rest_ofText source (h.suffix.subset List.mem_cons_self)
  exact Yaml.firstLine_cons (by simp [isLineEnd, hc, hnul])

section

variable {source : String} {p : Position} (hreturns : NoLoneReturn source.toList)
include hreturns

/-- A place on a line of which there is something to be seen. -/
theorem isLineAt_of_reaches {rest : List Char} (h : Reaches (Cursor.ofText source) p rest)
    (hline : 0 < p.column ∨ firstLine rest ≠ []) :
    ∃ front behind, IsLineAt source p front behind ∧
      behind.takeWhile (· ≠ '\x00') = firstLine rest := by
  obtain ⟨tail, htail, hreaches⟩ := reaches_of_ofText h
  have hne : 0 < p.column ∨ linesOf (rest ++ tail) ≠ [] := hline.imp_right fun hne =>
    linesOf_ne_nil fun hnil => hne (by rw [(List.append_eq_nil_iff.1 hnil).1]; rfl)
  obtain ⟨front, hfront⟩ := exists_isLineAt hreturns hreaches hne
  refine ⟨front, _, hfront, ?_⟩
  have hrest : NoLoneReturn (rest ++ tail) := fun behind hsuffix =>
    hreturns behind (hsuffix.trans hreaches.suffix)
  rw [takeWhile_headD_linesOf hrest, firstLine_append_tail htail]

theorem isLineAt_of_standsAt {c : Char} (h : StandsAt (Cursor.ofText source) p c) :
    ∃ front behind, IsLineAt source p front behind ∧
      (behind.takeWhile (· ≠ '\x00')).head? = some c := by
  obtain ⟨hc, cs, h⟩ := h
  have hfirst := firstLine_of_standsAt h hc
  obtain ⟨front, behind, hline, hbehind⟩ :=
    isLineAt_of_reaches hreturns h (.inr (hfirst ▸ List.cons_ne_nil _ _))
  exact ⟨front, behind, hline, by rw [hbehind, hfirst]; rfl⟩

/-- Behind a dash there are only blanks, and perhaps a comment, in front of the place. -/
theorem isLineAt_of_isBehindDash (h : IsBehindDash (Cursor.ofText source) p) :
    ∃ before gap behind, IsLineAt source p (before ++ '-' :: gap) behind ∧ IsTrailing gap := by
  obtain ⟨q, gap, rest, h, hgap, rfl⟩ := h
  have hfirst : firstLine ('-' :: gap ++ rest) = '-' :: gap ++ firstLine rest :=
    Yaml.firstLine_append (List.forall_mem_cons.2 ⟨by decide, fun d hd => hgap.isLineEnd hd⟩)
  obtain ⟨before, behind, hline, hbehind⟩ :=
    isLineAt_of_reaches hreturns h (.inr (hfirst ▸ List.cons_ne_nil _ _))
  obtain ⟨more, rfl⟩ : '-' :: gap <+: behind := by
    refine List.IsPrefix.trans ?_ (List.takeWhile_prefix (· ≠ '\x00'))
    rw [hbehind, ← List.cons_append, hfirst]
    exact List.prefix_append _ _
  refine ⟨before, gap, more, ⟨?_, ?_⟩, hgap⟩
  · rw [List.append_assoc]
    exact hline.line
  · rw [List.length_append, hline.column, List.length_cons]
    dsimp only
    omega

end

/-- A position cuts its line in one way. -/
theorem IsLineAt.unique {source : String} {p : Position} {front behind front' behind' : List Char}
    (h : IsLineAt source p front behind) (h' : IsLineAt source p front' behind') :
    front = front' ∧ behind = behind' := by
  have hline := h.line.symm.trans h'.line
  rw [Option.some.injEq, String.ofList_inj] at hline
  exact List.append_inj hline (h.column.trans h'.column.symm)

end TestScript.Text
