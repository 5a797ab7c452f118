import TestScript.Text.Lines

/-!
# Blank characters and words

A blank is a character with the Unicode property `White_Space`. Words are the maximal runs of
other characters; trimming drops the blanks at both ends.
-/

namespace TestScript.Text

/-- The characters with the property `White_Space`. -/
def isBlank (c : Char) : Bool :=
  let n := c.toNat
  (0x9 ≤ n && n ≤ 0xD) || n == 0x20 || n == 0x85 || n == 0xA0 || n == 0x1680 ||
    (0x2000 ≤ n && n ≤ 0x200A) || n == 0x2028 || n == 0x2029 || n == 0x202F || n == 0x205F ||
    n == 0x3000

/-- Whether a text begins with a blank. -/
def beginsBlank : List Char → Bool
  | [] => false
  | c :: _ => isBlank c

/-- The maximal runs of characters that are not blank, in order. -/
def wordsOf : List Char → List (List Char)
  | [] => []
  | c :: cs =>
    if isBlank c then wordsOf cs
    else if beginsBlank cs then [c] :: wordsOf cs
    else consFirst c (wordsOf cs)

/-- A word is not empty and holds no blanks. -/
theorem of_mem_wordsOf {cs w : List Char} (h : w ∈ wordsOf cs) :
    w ≠ [] ∧ ∀ c ∈ w, isBlank c = false := by
  induction cs generalizing w with
  | nil => simp [wordsOf] at h
  | cons c cs ih =>
    rw [wordsOf] at h
    split at h
    · exact ih h
    · next hc =>
      split at h
      · rcases List.mem_cons.1 h with rfl | h
        · simpa using hc
        · exact ih h
      · rcases of_mem_consFirst h with ⟨y, rfl, rfl | hy⟩ | h
        · simpa using hc
        · simpa [hc] using (ih hy).2
        · exact ih h

/-- The words of a text, in order. -/
def words (s : String) : List String :=
  (wordsOf s.toList).map String.ofList

/-- The text without the blanks at its two ends. -/
def trimBlanks (cs : List Char) : List Char :=
  ((cs.dropWhile isBlank).reverse.dropWhile isBlank).reverse

end TestScript.Text
