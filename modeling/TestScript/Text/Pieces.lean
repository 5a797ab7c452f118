import TestScript.Text.Lines

/-!
# Pieces of a text

A text is split at each occurrence of a separator. None of the pieces holds the separator.
-/

namespace TestScript.Text

/-- The pieces of a text between the separators. There is always one more than separators. -/
def pieces (separator : Char) : List Char → List (List Char)
  | [] => [[]]
  | c :: cs =>
    if c = separator then [] :: pieces separator cs else consFirst c (pieces separator cs)

theorem not_mem_of_mem_pieces {separator : Char} {cs p : List Char}
    (h : p ∈ pieces separator cs) : separator ∉ p := by
  induction cs generalizing p with
  | nil => simp_all [pieces]
  | cons c cs ih =>
    rw [pieces] at h
    split at h
    · rcases List.mem_cons.1 h with rfl | h
      · simp
      · exact ih h
    · next hc =>
      rcases of_mem_consFirst h with ⟨q, rfl, rfl | hq⟩ | h
      · simpa using Ne.symm hc
      · simp [ih hq, Ne.symm hc]
      · exact ih h

/-- The pieces of a text, as texts. -/
def split (separator : Char) (cs : List Char) : List String :=
  (pieces separator cs).map String.ofList

end TestScript.Text
