import Mathlib.Data.List.Forall2
import TestScript.Proofs.Text.Places
import TestScript.Text.Excerpt

/-!
# Excerpts are aligned

An excerpt shows the line of a place between the lines next to it, as far as there are such lines.
Each is behind its number, all rows have their bar in one column, and the caret stands under the
character that it points at (`isAligned_excerpt`).

The lines of a text are those that its line endings make (`getElem?_lines_iff`). The numbers by
which they are looked up are in range: an excerpt that has no answer to a number out of range is the
same (`excerpt?_eq`).
-/

namespace TestScript.Text

/-! ## Lines and their numbers -/

/-- A text begins with a line, and the rest is below it. The line ends at a line feed, at a carriage
return with a line feed, or, if it is not empty, with the text. -/
inductive BeginsWith : (cs line below : List Char) → Prop
  | lineFeed {line below : List Char} (hline : '\n' ∉ line)
    (hreturn : line.getLast? ≠ some '\r') : BeginsWith (line ++ '\n' :: below) line below
  | returnLineFeed {line below : List Char} (hline : '\n' ∉ line) :
    BeginsWith (line ++ '\r' :: '\n' :: below) line below
  | last {line : List Char} (hline : '\n' ∉ line) (hne : line ≠ []) : BeginsWith line line []

/-- A line of a text with its number: the first line has number 0, and the numbers go on in what is
below it. -/
inductive IsLine : (cs : List Char) → (number : Nat) → (line : List Char) → Prop
  | first {cs line below : List Char} (h : BeginsWith cs line below) : IsLine cs 0 line
  | later {cs first below line : List Char} {number : Nat} (h : BeginsWith cs first below)
    (hline : IsLine below number line) : IsLine cs (number + 1) line

/-- Characters without a line feed end no line, unless the last of them begins an ending. -/
theorem linesOf_append {front rest : List Char} (hfront : '\n' ∉ front)
    (hreturn : front.getLast? = some '\r' → rest.head? ≠ some '\n') :
    linesOf (front ++ rest) = front.foldr consFirst (linesOf rest) := by
  induction front with
  | nil => rfl
  | cons c front ih =>
    obtain ⟨hc, hnot⟩ := not_or.1 (mt List.mem_cons.2 hfront)
    -- A carriage return is only half of an ending: what is behind it has to be looked at.
    have hending : ∀ cs, c = '\r' → front ++ rest = '\n' :: cs → False := by
      rintro cs rfl hcs
      cases front with
      | nil => exact hreturn rfl (by rw [← List.nil_append rest, hcs]; rfl)
      | cons d front => exact hnot ((List.cons.inj hcs).1 ▸ List.mem_cons_self)
    rw [List.cons_append, linesOf.eq_4 c _ (Ne.symm hc) hending, List.foldr_cons]
    rw [ih hnot fun hlast => ?_]
    cases front with
    | nil => simp at hlast
    | cons d front => exact hreturn (by rwa [List.getLast?_cons_cons])

theorem BeginsWith.linesOf_eq {cs line below : List Char} (h : BeginsWith cs line below) :
    linesOf cs = line :: linesOf below := by
  cases h with
  | lineFeed hline hreturn =>
    rw [linesOf_append hline fun h => absurd h hreturn, linesOf, foldr_consFirst (.inr (by simp))]
    simp
  | returnLineFeed hline =>
    rw [linesOf_append hline (by simp), linesOf, foldr_consFirst (.inr (by simp))]
    simp
  | last hline hne =>
    have h : linesOf (cs ++ []) = cs.foldr consFirst (linesOf []) :=
      linesOf_append hline (by simp)
    rw [List.append_nil] at h
    rw [h, foldr_consFirst (.inl hne)]
    simp [linesOf]

theorem eq_nil_or_exists_beginsWith (cs : List Char) :
    cs = [] ∨ ∃ line below, BeginsWith cs line below := by
  by_cases hfeed : '\n' ∈ cs
  · obtain ⟨front, below, rfl, hfront⟩ := List.eq_append_cons_of_mem hfeed
    by_cases hreturn : front.getLast? = some '\r'
    · obtain ⟨line, rfl⟩ := List.getLast?_eq_some_iff.1 hreturn
      have hline : '\n' ∉ line := fun hmem => hfront (List.mem_append_left _ hmem)
      rw [List.append_assoc]
      exact .inr ⟨line, below, .returnLineFeed hline⟩
    · exact .inr ⟨front, below, .lineFeed hfront hreturn⟩
  · by_cases hcs : cs = []
    · exact .inl hcs
    · exact .inr ⟨cs, [], .last hfeed hcs⟩

/-- A text has the lines that its line endings make. -/
theorem getElem?_linesOf_iff {cs line : List Char} {number : Nat} :
    (linesOf cs)[number]? = some line ↔ IsLine cs number line := by
  constructor
  · intro h
    induction number generalizing cs with
    | zero =>
      obtain rfl | ⟨first, below, hfirst⟩ := eq_nil_or_exists_beginsWith cs
      · cases h
      · rw [hfirst.linesOf_eq, List.getElem?_cons_zero, Option.some.injEq] at h
        exact .first (h ▸ hfirst)
    | succ number ih =>
      obtain rfl | ⟨first, below, hfirst⟩ := eq_nil_or_exists_beginsWith cs
      · cases h
      · rw [hfirst.linesOf_eq, List.getElem?_cons_succ] at h
        exact .later hfirst (ih h)
  · intro h
    induction h with
    | first h => rw [h.linesOf_eq, List.getElem?_cons_zero]
    | later h _ ih => rw [h.linesOf_eq, List.getElem?_cons_succ, ih]

theorem getElem?_lines_iff {source line : String} {number : Nat} :
    (lines source)[number]? = some line ↔ IsLine source.toList number line.toList := by
  rw [← getElem?_linesOf_iff, lines, List.getElem?_map, Option.map_eq_some_iff]
  constructor
  · rintro ⟨cs, hcs, rfl⟩
    rwa [String.toList_ofList]
  · intro h
    exact ⟨_, h, String.ofList_toList⟩

/-! ## Rows and what stands on them -/

/-- What stands on a row of an excerpt: nothing, a line behind its number, or the caret. -/
inductive Content where
  | nothing
  | line (number : Nat) (text : String)
  | caret

/-- A row behind a gutter. A label ends the gutter; a blank, a bar and the rest of the row are
behind it. The bar is the first one of the row. -/
structure IsRow (width : Nat) (label rest row : String) : Prop where
  fills : ∃ blanks, blanks + label.length = width ∧
    row = String.ofList (List.replicate blanks ' ') ++ label ++ " |" ++ rest
  bar : row.toList.idxOf '|' = width + 1

/-- The caret behind as many blanks as the column says, and a message. -/
def pointer (column : Nat) (message : String) : String :=
  String.ofList (List.replicate column ' ') ++ "^ " ++ message

/-- A row has a content, where the caret points at a column. Character `k` of a line is character
`width + 3 + k` of its row, and the caret is character `width + 3 + column` of its own, however long
the line is. -/
def Content.IsOn (width column : Nat) (message : String) : Content → String → Prop
  | .nothing, row => IsRow width "" "" row
  | .line number text, row =>
    IsRow width (toString number) (" " ++ text) row ∧
      ∀ k, row.toList[width + 3 + k]? = text.toList[k]?
  | .caret, row =>
    IsRow width "" (" " ++ pointer column message) row ∧
      row.toList.idxOf '^' = width + 3 + column

/-- The row for a content. -/
def Content.render (width column : Nat) (message : String) : Content → String
  | .nothing => row width "" ""
  | .line number text => row width (toString number) (" " ++ text)
  | .caret => row width "" (" " ++ pointer column message)

/-- A number takes no more room than a greater one. -/
theorem length_toString_mono {m n : Nat} (h : m ≤ n) :
    (toString m).length ≤ (toString n).length := by
  have hpos : 0 < n.repr.length := Nat.length_repr_pos
  have hlt : n < 10 ^ n.repr.length := (Nat.length_repr_le_iff hpos).1 (Nat.le_refl _)
  exact (Nat.length_repr_le_iff hpos).2 (Nat.lt_of_le_of_lt h hlt)

/-- A number has no bar. -/
theorem bar_not_mem_toString (n : Nat) : '|' ∉ (toString n).toList := by
  rw [Nat.toString_eq_ofList_toDigits, String.toList_ofList]
  intro hmem
  have hdigit : '|'.isDigit := Nat.isDigit_of_mem_toDigits (by decide) (by decide) hmem
  cases hdigit

theorem toList_row {width : Nat} {gutter : String} (h : gutter.length ≤ width) (content : String) :
    ∃ front : List Char,
      front = List.replicate (width - gutter.length) ' ' ++ gutter.toList ++ [' '] ∧
      front.length = width + 1 ∧
      (row width gutter content).toList = front ++ '|' :: content.toList := by
  refine ⟨_, rfl, ?_, by simp [row, padLeft]⟩
  simp only [List.length_append, List.length_replicate, String.length_toList, List.length_singleton]
  omega

theorem isRow_row {width : Nat} {gutter content : String} (h : gutter.length ≤ width)
    (hbar : '|' ∉ gutter.toList) : IsRow width gutter content (row width gutter content) := by
  obtain ⟨front, hfront, hlength, hrow⟩ := toList_row h content
  refine ⟨⟨width - gutter.length, Nat.sub_add_cancel h, rfl⟩, ?_⟩
  have hnot : '|' ∉ front := by simp [hfront, hbar]
  rw [hrow, List.idxOf_append_of_notMem hnot, List.idxOf_cons_self, hlength, Nat.add_zero]

theorem isOn_render {width column : Nat} {message : String} {content : Content}
    (h : ∀ number text, content = .line number text → (toString number).length ≤ width) :
    content.IsOn width column message (content.render width column message) := by
  have hempty : ("" : String).length ≤ width := Nat.zero_le _
  cases content with
  | nothing => exact isRow_row hempty (by simp)
  | line number text =>
    have hnumber := h number text rfl
    refine ⟨isRow_row hnumber (bar_not_mem_toString number), fun k => ?_⟩
    obtain ⟨front, -, hlength, hrow⟩ := toList_row hnumber (" " ++ text)
    have hsplit : (row width (toString number) (" " ++ text)).toList =
        (front ++ ['|', ' ']) ++ text.toList := by
      rw [hrow]
      simp
    have hcolumn : width + 3 = (front ++ ['|', ' ']).length := by simp [hlength]
    rw [Content.render, hsplit, hcolumn, List.getElem?_append_right (Nat.le_add_right _ _),
      Nat.add_sub_cancel_left]
  | caret =>
    refine ⟨isRow_row hempty (by simp), ?_⟩
    obtain ⟨front, hfront, hlength, hrow⟩ := toList_row hempty (" " ++ pointer column message)
    have hsplit : (Content.caret.render width column message).toList =
        (front ++ '|' :: ' ' :: List.replicate column ' ') ++ '^' :: ' ' :: message.toList := by
      rw [Content.render, hrow]
      simp [pointer]
    have hnot : '^' ∉ front ++ '|' :: ' ' :: List.replicate column ' ' := by simp [hfront]
    have hcolumn :
        (front ++ '|' :: ' ' :: List.replicate column ' ').length = width + 3 + column := by
      simp only [List.length_append, List.length_cons, List.length_replicate, hlength]
      omega
    rw [hsplit, List.idxOf_append_of_notMem hnot, List.idxOf_cons_self, hcolumn, Nat.add_zero]

/-! ## The lines that are shown -/

/-- The numbers of the lines above the caret: that of the place, behind the one before it. -/
def numbersAbove (number : Nat) : List Nat :=
  (if 0 < number then [number - 1] else []) ++ [number]

/-- The number of the line below the caret, in a text with so many lines. -/
def numbersBelow (number count : Nat) : List Nat :=
  if number + 1 < count then [number + 1] else []

theorem mem_numbersAbove {line number : Nat} :
    number ∈ numbersAbove line ↔ number + 1 = line ∨ number = line := by
  rw [numbersAbove, List.mem_append, List.mem_singleton]
  refine or_congr_left ?_
  by_cases hline : 0 < line
  · rw [if_pos hline, List.mem_singleton]
    omega
  · rw [if_neg hline]
    exact iff_of_false List.not_mem_nil (by omega)

theorem mem_numbersBelow {line count number : Nat} :
    number ∈ numbersBelow line count ↔ number = line + 1 ∧ number < count := by
  rw [numbersBelow]
  by_cases hnext : line + 1 < count
  · rw [if_pos hnext, List.mem_singleton]
    omega
  · rw [if_neg hnext]
    exact iff_of_false List.not_mem_nil (by omega)

theorem mem_numbers_iff {line count number : Nat} (h : number < count) :
    number ∈ numbersAbove line ++ numbersBelow line count ↔
      line ≤ number + 1 ∧ number ≤ line + 1 := by
  rw [List.mem_append, mem_numbersAbove, mem_numbersBelow]
  omega

theorem pairwise_numbers (line count : Nat) :
    (numbersAbove line ++ numbersBelow line count).Pairwise (· < ·) := by
  refine List.pairwise_append.2 ⟨?_, ?_, fun m hm n hn => ?_⟩
  · rw [numbersAbove]
    by_cases hline : 0 < line
    · rw [if_pos hline]
      exact List.pairwise_pair.2 (Nat.sub_lt hline Nat.one_pos)
    · simp [hline]
  · rw [numbersBelow]
    by_cases hnext : line + 1 < count
    · simp [hnext]
    · simp [hnext]
  · rw [mem_numbersAbove] at hm
    rw [mem_numbersBelow] at hn
    omega

/-- The lines that have some of the numbers, with these. -/
def numbered (source : List String) (numbers : List Nat) : List (Nat × String) :=
  numbers.filterMap fun number => source[number]?.map (number, ·)

/-- The lines with the numbers, where each is an index. If one is out of range, there is no
answer. -/
def numbered? (source : List String) (numbers : List Nat) : Option (List (Nat × String)) :=
  numbers.mapM fun number => source[number]?.map (number, ·)

section

variable {source : List String} {numbers : List Nat}

theorem mem_numbered {number : Nat} {text : String} :
    (number, text) ∈ numbered source numbers ↔ number ∈ numbers ∧ source[number]? = some text := by
  simp only [numbered, List.mem_filterMap, Option.map_eq_some_iff, Prod.mk.injEq]
  constructor
  · rintro ⟨_, hmem, _, htext, rfl, rfl⟩
    exact ⟨hmem, htext⟩
  · rintro ⟨hmem, htext⟩
    exact ⟨number, hmem, text, htext, rfl, rfl⟩

theorem numbered_append (numbers others : List Nat) :
    numbered source (numbers ++ others) = numbered source numbers ++ numbered source others :=
  List.filterMap_append

theorem numbered_singleton {number : Nat} {text : String} (h : source[number]? = some text) :
    numbered source [number] = [(number, text)] := by
  rw [numbered, List.filterMap_cons, h]
  rfl

theorem pairwise_numbered (h : numbers.Pairwise (· < ·)) :
    (numbered source numbers).Pairwise (·.1 < ·.1) := by
  refine List.Pairwise.filterMap _ ?_ h
  intro m n hlt l hl l' hl'
  obtain ⟨_, -, rfl⟩ := Option.map_eq_some_iff.1 hl
  obtain ⟨_, -, rfl⟩ := Option.map_eq_some_iff.1 hl'
  exact hlt

theorem numbered?_eq (h : ∀ number ∈ numbers, number < source.length) :
    numbered? source numbers = some (numbered source numbers) := by
  induction numbers with
  | nil => rfl
  | cons number numbers ih =>
    obtain ⟨hnumber, hnumbers⟩ := List.forall_mem_cons.1 h
    have hhead : source[number]? = some source[number] := List.getElem?_eq_getElem hnumber
    have hcons : numbered source (number :: numbers) =
        (number, source[number]) :: numbered source numbers := by
      rw [← List.singleton_append, numbered_append, numbered_singleton hhead, List.singleton_append]
    have htail := ih hnumbers
    rw [numbered?] at htail
    rw [numbered?, List.mapM_cons, htail, hhead, hcons]
    rfl

end

/-- Lines above and below the caret, with their numbers, are those next to a place and its own, in
order. The line of the place is right above the caret. -/
structure Neighbours (source : String) (p : Position) (above below : List (Nat × String)) :
    Prop where
  mem_iff : ∀ number text, (number, text) ∈ above ++ below ↔
    IsLine source.toList number text.toList ∧ p.line ≤ number + 1 ∧ number ≤ p.line + 1
  ascending : (above ++ below).Pairwise (·.1 < ·.1)
  last : ∃ text, above.getLast? = some (p.line, text)

theorem neighbours_numbered {source line : String} {p : Position}
    (h : (lines source)[p.line]? = some line) :
    Neighbours source p (numbered (lines source) (numbersAbove p.line))
      (numbered (lines source) (numbersBelow p.line (lines source).length)) where
  mem_iff number text := by
    rw [← numbered_append, mem_numbered, getElem?_lines_iff, and_comm]
    refine and_congr_right fun hline => mem_numbers_iff ?_
    exact (List.getElem?_eq_some_iff.1 (getElem?_lines_iff.2 hline)).1
  ascending := by
    rw [← numbered_append]
    exact pairwise_numbered (pairwise_numbers _ _)
  last := by
    refine ⟨line, ?_⟩
    rw [numbersAbove, numbered_append, numbered_singleton h]
    exact List.getLast?_concat

/-! ## Excerpts -/

/-- The first row of an excerpt. -/
def heading (p : Position) : String :=
  "  --> " ++ toString p.line ++ ":" ++ toString p.column

/-- What stands on the rows behind the heading. -/
def layout (above below : List (Nat × String)) : List Content :=
  .nothing :: above.map (fun l => .line l.1 l.2) ++ .caret :: below.map (fun l => .line l.1 l.2) ++
    [.nothing]

theorem line_mem_layout {above below : List (Nat × String)} {number : Nat} {text : String} :
    Content.line number text ∈ layout above below ↔ (number, text) ∈ above ++ below := by
  simp [layout]

/-- A text shows the lines next to a place, its own and the caret. The rows are behind gutters of
one width, which has room for the number of each of the lines. A message of several lines goes on
below the caret. -/
def IsAligned (message source : String) (p : Position) (text : String) : Prop :=
  ∃ above below rows, Neighbours source p above below ∧
    text = "\n".intercalate (heading p :: rows) ∧
    List.Forall₂ (Content.IsOn (toString (p.line + 1)).length p.column message)
      (layout above below) rows

/-- An excerpt of a text whose lines are looked up by index. -/
def excerpt? (message source : String) (p : Position) : Option String :=
  let source := lines source
  let width := (toString (p.line + 1)).length
  if source.length ≤ p.line then
    some (message ++ " at line " ++ toString p.line)
  else do
    let above ← numbered? source (numbersAbove p.line)
    let below ← numbered? source (numbersBelow p.line source.length)
    return "\n".intercalate
      (heading p :: (layout above below).map (·.render width p.column message))

theorem map_render_numbered {width column : Nat} {message : String} {source : List String}
    (numbers : List Nat) :
    ((numbered source numbers).map fun l => Content.line l.1 l.2).map
        (·.render width column message) = numbers.flatMap (lineRow width source) := by
  induction numbers with
  | nil => rfl
  | cons number numbers ih =>
    rw [List.flatMap_cons, ← ih, numbered, List.filterMap_cons, lineRow]
    cases source[number]? with
    | none => rfl
    | some text => rfl

theorem excerptRows_eq (message : String) (source : List String) (p : Position) :
    excerptRows message source p = heading p ::
      (layout (numbered source (numbersAbove p.line))
        (numbered source (numbersBelow p.line source.length))).map
          (·.render (toString (p.line + 1)).length p.column message) := by
  have habove : ∀ width, (if p.line = 0 then [] else lineRow width source (p.line - 1)) ++
      lineRow width source p.line = (numbersAbove p.line).flatMap (lineRow width source) := by
    intro width
    rw [numbersAbove]
    by_cases hline : p.line = 0
    · simp [hline]
    · simp [hline, Nat.pos_of_ne_zero hline]
  have hbelow : ∀ width, lineRow width source (p.line + 1) =
      (numbersBelow p.line source.length).flatMap (lineRow width source) := by
    intro width
    rw [numbersBelow]
    -- The number below the last line is left out on one side, and has no row on the other.
    by_cases hnext : p.line + 1 < source.length
    · simp [hnext]
    · simp [hnext, lineRow]
  rw [layout, List.map_append, List.map_append, List.map_cons, List.map_cons, map_render_numbered,
    map_render_numbered, ← habove, ← hbelow, excerptRows]
  simp [heading, Content.render, pointer, String.append_assoc]

/-- No line is looked up by an index that is out of range. -/
theorem excerpt?_eq (message source : String) (p : Position) :
    excerpt? message source p = some (excerpt message source p) := by
  rw [excerpt?, excerpt]
  by_cases h : p.line < (lines source).length
  · have habove : ∀ number ∈ numbersAbove p.line, number < (lines source).length := by
      intro number hmem
      rw [mem_numbersAbove] at hmem
      omega
    have hbelow : ∀ number ∈ numbersBelow p.line (lines source).length,
        number < (lines source).length :=
      fun number hmem => (mem_numbersBelow.1 hmem).2
    rw [if_neg (Nat.not_le.2 h), if_pos h, numbered?_eq habove, numbered?_eq hbelow,
      excerptRows_eq]
    rfl
  · rw [if_pos (Nat.not_lt.1 h), if_neg h]

/-- **Excerpts are aligned.** For each message, text and place whose line exists, the excerpt shows
the lines next to the place and its own, behind their numbers. The bars of the rows stand in one
column, and the caret stands under the character that it points at. It makes no difference to look
the lines up by indexes that have to be in range. -/
theorem isAligned_excerpt {message source : String} {p : Position} {line : List Char}
    (h : IsLine source.toList p.line line) :
    IsAligned message source p (excerpt message source p) ∧
      excerpt? message source p = some (excerpt message source p) := by
  have hline : (lines source)[p.line]? = some (String.ofList line) :=
    getElem?_lines_iff.2 (by rwa [String.toList_ofList])
  have hlt : p.line < (lines source).length := (List.getElem?_eq_some_iff.1 hline).1
  have hneighbours := neighbours_numbered hline
  refine ⟨⟨_, _, _, hneighbours, by rw [excerpt, if_pos hlt, excerptRows_eq], ?_⟩,
    excerpt?_eq message source p⟩
  rw [List.forall₂_map_right_iff, List.forall₂_same]
  intro content hcontent
  -- The gutter has room for the greatest number that may be shown, and so for each of them.
  refine isOn_render fun number text heq => length_toString_mono ?_
  subst heq
  exact ((hneighbours.mem_iff number text).1 (line_mem_layout.1 hcontent)).2.2

/-- A text with eleven lines, whose last number has a second digit. -/
def elevenLines : String :=
  "0\n1\n2\n3\n4\n5\n6\n7\nsteps:\r\n  a:\r\n  b:"

/-- The caret points behind the end of its line. -/
theorem isAligned_elevenLines :
    IsLine elevenLines.toList 9 "  a:".toList ∧
      (IsAligned "boom" elevenLines ⟨9, 6⟩ (excerpt "boom" elevenLines ⟨9, 6⟩) ∧
        excerpt? "boom" elevenLines ⟨9, 6⟩ = some (excerpt "boom" elevenLines ⟨9, 6⟩)) ∧
      excerpt "boom" elevenLines ⟨9, 6⟩ =
        "  --> 9:6\n   |\n 8 | steps:\n 9 |   a:\n   |       ^ boom\n10 |   b:\n   |" := by
  have hline : IsLine elevenLines.toList 9 "  a:".toList := getElem?_linesOf_iff.1 (by decide)
  exact ⟨hline, isAligned_excerpt (p := ⟨9, 6⟩) hline, by cbv⟩

end TestScript.Text
