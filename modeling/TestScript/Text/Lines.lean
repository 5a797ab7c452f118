/-!
# Lines of a text

A line ends at a line feed, and a carriage return right before that line feed belongs to the
ending. What follows the last line feed is a line only if it is not empty.
-/

namespace TestScript.Text

/-- Puts `c` in front of the first of several texts. -/
def consFirst (c : Char) : List (List Char) → List (List Char)
  | [] => [[c]]
  | l :: ls => (c :: l) :: ls

theorem of_mem_consFirst {c : Char} {x : List Char} {xs : List (List Char)}
    (h : x ∈ consFirst c xs) : (∃ y, x = c :: y ∧ (y = [] ∨ y ∈ xs)) ∨ x ∈ xs := by
  cases xs with
  | nil => exact .inl ⟨[], by simpa [consFirst] using h⟩
  | cons y ys =>
    rcases List.mem_cons.1 h with rfl | h
    · exact .inl ⟨y, rfl, .inr List.mem_cons_self⟩
    · exact .inr (List.mem_cons_of_mem _ h)

/-- The lines of `cs`, without their endings. -/
def linesOf : List Char → List (List Char)
  | [] => []
  | '\n' :: cs => [] :: linesOf cs
  | '\r' :: '\n' :: cs => [] :: linesOf cs
  | c :: cs => consFirst c (linesOf cs)

/-- No line holds a line feed. -/
theorem not_mem_of_mem_linesOf {cs l : List Char} (h : l ∈ linesOf cs) : '\n' ∉ l := by
  fun_induction linesOf cs generalizing l with
  | case1 => simp at h
  | case2 cs ih | case3 cs ih =>
    rcases List.mem_cons.1 h with rfl | h
    · simp
    · exact ih h
  | case4 c cs hc _ ih =>
    rcases of_mem_consFirst h with ⟨y, rfl, rfl | hy⟩ | h
    · simpa using fun e => hc e.symm
    · have := ih hy
      simpa [this] using fun e => hc e.symm
    · exact ih h

/-- The lines of a text, without their endings. -/
def lines (s : String) : List String :=
  (linesOf s.toList).map String.ofList

end TestScript.Text
