import Mathlib.Data.List.GetD
import Mathlib.Data.List.TakeWhile
import TestScript.Proofs.Yaml.Places

/-!
# Cursors know their places

A cursor goes over a text by a few steps: over characters of a line, and over the end of one. It
agrees with where it comes from as long as it takes the first kind of step only where no line ends,
and then so does all that is made of these steps. Only over verbatim text does a cursor count its
columns in its own way, and it is right again on the next line.
-/

namespace TestScript.Yaml

/-! ## What a reading yields -/

section Yields

variable {ε ε' α β : Type}

/-- If a reading ends without a fault, then `Q` holds of what it gives. -/
def Yields (x : Except ε α) (Q : α → Prop) : Prop :=
  ∀ a, x = .ok a → Q a

variable {x : Except ε α} {f : α → Except ε β} {P : α → Prop} {Q : β → Prop}

theorem yields_pure {b : β} (h : Q b) : Yields (pure b : Except ε β) Q := by
  rintro _ ⟨⟩
  exact h

theorem yields_throw {e : ε} : Yields (throw e : Except ε β) Q := by
  rintro _ ⟨⟩

theorem yields_throw_bind {e : ε} : Yields (throw e >>= f) Q := by
  rintro _ ⟨⟩

theorem yields_ite {b : Prop} [Decidable b] {y z : Except ε β} (hy : b → Yields y Q)
    (hz : ¬ b → Yields z Q) : Yields (if b then y else z) Q := by
  split
  · next h => exact hy h
  · next h => exact hz h

theorem Yields.bind (hx : Yields x P) (hf : ∀ a, P a → Yields (f a) Q) : Yields (x >>= f) Q := by
  cases x with
  | error e => rintro _ ⟨⟩
  | ok a => exact hf a (hx a rfl)

theorem Yields.mono {P' : α → Prop} (hx : Yields x P) (h : ∀ a, P a → P' a) : Yields x P' :=
  fun a ha => h a (hx a ha)

theorem Yields.and {Q : α → Prop} (hx : Yields x P) (h : Yields x Q) :
    Yields x fun a => P a ∧ Q a :=
  fun a ha => ⟨hx a ha, h a ha⟩

theorem Yields.mapError (hx : Yields x P) (g : ε → ε') : Yields (x.mapError g) P := by
  cases x with
  | error e => rintro _ ⟨⟩
  | ok a =>
    rintro _ ⟨⟩
    exact hx a rfl

end Yields

/-! ## Characters -/

theorem isBreak_of_isLineEnd {c : Char} (h : isLineEnd c = false) : isBreak c = false := by
  rw [isLineEnd, Bool.or_eq_false_iff] at h
  exact h.1

theorem ne_nul_of_isLineEnd {c : Char} (h : isLineEnd c = false) : c ≠ '\x00' := by
  rw [isLineEnd, Bool.or_eq_false_iff] at h
  exact of_decide_eq_false h.2

theorem isLineEnd_of_isGap {c : Char} (h : isGap c = false) : isLineEnd c = false := by
  rw [isGap, Bool.or_eq_false_iff] at h
  exact h.2

theorem isLineEnd_of_isBlank {c : Char} (h : isBlank c = true) : isLineEnd c = false := by
  rw [isBlank, Bool.or_eq_true, decide_eq_true_eq, decide_eq_true_eq] at h
  rcases h with rfl | rfl <;> decide

/-! ## Steps -/

namespace Cursor

variable {origin : Cursor} {c : Cursor} {n : Nat}

/-- The position of a cursor is that of the place one comes to, reading on from an origin. -/
def Agrees (c origin : Cursor) : Prop :=
  Reaches origin c.position c.rest

/-- A cursor agrees with its origin, or has come to the end of the text and stands there or behind
it. -/
def Follows (c origin : Cursor) : Prop :=
  c.Agrees origin ∨ c.rest = [] ∧ ∃ q, Reaches origin q [] ∧ q ≤ c.position

theorem Agrees.follows (h : c.Agrees origin) : c.Follows origin :=
  .inl h

theorem agrees_refl (c : Cursor) : c.Agrees c :=
  .start

theorem Agrees.trans {c' : Cursor} (h : c.Agrees origin) (h' : c'.Agrees c) : c'.Agrees origin :=
  Reaches.trans h h'

theorem Agrees.trans_follows {c' : Cursor} (h : c.Agrees origin) (h' : c'.Follows c) :
    c'.Follows origin := by
  rcases h' with h' | ⟨hrest, q, hq, hle⟩
  · exact (h.trans h').follows
  · exact .inr ⟨hrest, q, Reaches.trans h hq, hle⟩

theorem Follows.trans {c' : Cursor} (h : c.Follows origin) (h' : c'.Agrees c) :
    c'.Follows origin := by
  rcases h with h | ⟨hrest, q, hq, hle⟩
  · exact (h.trans h').follows
  · exact .inr ⟨List.suffix_nil.1 (hrest ▸ h'.suffix), q, hq, Position.le_trans hle h'.le⟩

theorem Follows.length_le (h : c.Follows origin) : c.rest.length ≤ origin.rest.length := by
  rcases h with h | ⟨hrest, -⟩
  · exact h.suffix.length_le
  · simp [hrest]

theorem Follows.le (h : c.Follows origin) : origin.position ≤ c.position := by
  rcases h with h | ⟨-, q, hq, hle⟩
  · exact h.le
  · exact Position.le_trans hq.le hle

theorem le_advance (c : Cursor) (n : Nat) : c.position ≤ (c.advance n).position :=
  .inr ⟨rfl, Nat.le_add_right _ _⟩

/-- A cursor stands at another one or behind it. -/
structure IsBehind (c origin : Cursor) : Prop where
  le : origin.position ≤ c.position
  length_le : c.rest.length ≤ origin.rest.length

theorem Follows.isBehind (h : c.Follows origin) : c.IsBehind origin :=
  ⟨h.le, h.length_le⟩

theorem Agrees.isBehind (h : c.Agrees origin) : c.IsBehind origin :=
  h.follows.isBehind

theorem IsBehind.trans {c' : Cursor} (h : c.IsBehind origin) (h' : c'.IsBehind c) :
    c'.IsBehind origin :=
  ⟨Position.le_trans h.le h'.le, Nat.le_trans h'.length_le h.length_le⟩

theorem isBehind_advance (c : Cursor) (n : Nat) : (c.advance n).IsBehind c :=
  ⟨c.le_advance n, by rw [length_rest_advance]; exact Nat.sub_le _ _⟩

theorem IsBehind.rest_ne_nil (h : c.IsBehind origin) (hrest : c.rest ≠ []) : origin.rest ≠ [] := by
  rintro hnil
  have hlength := h.length_le
  rw [hnil, List.length_nil, Nat.le_zero, List.length_eq_zero_iff] at hlength
  exact hrest hlength

/-- What is looked at, but for the end of the text, stands there. -/
theorem lt_length_of_look (h : c.look n ≠ '\x00') : n < c.rest.length := by
  by_contra hn
  rw [look, List.getD_eq_default _ _ (Nat.le_of_not_lt hn)] at h
  exact h rfl

theorem rest_eq_of_next (h : c.next ≠ '\x00') : ∃ cs, c.rest = c.next :: cs := by
  rw [next, look] at *
  cases hrest : c.rest with
  | nil =>
    rw [hrest] at h
    exact absurd rfl h
  | cons d cs => exact ⟨cs, rfl⟩

theorem length_takeWhile_pos {p : Char → Bool} (h : c.next ≠ '\x00') (hp : p c.next = true) :
    0 < (c.rest.takeWhile p).length := by
  obtain ⟨cs, hrest⟩ := rest_eq_of_next h
  rw [hrest, List.takeWhile_cons_of_pos hp]
  exact Nat.succ_pos _

theorem length_rest_advance_lt (h : c.next ≠ '\x00') :
    (c.advance 1).rest.length < c.rest.length := by
  have hpos : 0 < c.rest.length := lt_length_of_look h
  rw [length_rest_advance]
  omega

theorem length_rest_skipLine_lt (h : isLineEnd c.next = false) :
    c.skipLine.rest.length < c.rest.length := by
  have hpos := length_takeWhile_pos (p := (! isLineEnd ·)) (ne_nul_of_isLineEnd h) (by simp [h])
  have hle : (c.rest.takeWhile (! isLineEnd ·)).length ≤ c.rest.length :=
    (List.takeWhile_prefix _).length_le
  rw [skipLine, span]
  dsimp only
  rw [if_neg (by rw [List.isEmpty_iff_length_eq_zero]; omega), length_rest_advance]
  omega

/-- Only at its end a text without NUL reads as NUL. -/
theorem Agrees.rest_eq_nil (h : c.Agrees origin) (hnul : '\x00' ∉ origin.rest)
    (hnext : c.next = '\x00') :
    c.rest = [] := by
  cases hrest : c.rest with
  | nil => rfl
  | cons d cs =>
    have hd : d = '\x00' := by rwa [next, look, hrest] at hnext
    have hmem : d ∈ c.rest := by rw [hrest]; exact List.mem_cons_self
    exact absurd (hd ▸ h.suffix.subset hmem) hnul

theorem Agrees.advance (h : c.Agrees origin) (hn : n ≤ c.rest.length)
    (hbreak : ∀ d ∈ c.rest.take n, isBreak d = false) : (c.advance n).Agrees origin := by
  have hreaches : Reaches origin c.position (c.rest.take n ++ c.rest.drop n) := by
    rwa [List.take_append_drop]
  have hadvance := hreaches.advance hbreak
  rwa [List.length_take, Nat.min_eq_left hn] at hadvance

theorem Agrees.skipBlanks (h : (c.advance n).Agrees origin) : (c.skipBlanks n).Agrees origin :=
  h

/-- No line ends at the characters that are stepped over. -/
theorem Agrees.advance_of_look (h : c.Agrees origin)
    (hlook : ∀ k < n, isLineEnd (c.look k) = false) :
    (c.advance n).Agrees origin := by
  have hn : n ≤ c.rest.length := by
    cases n with
    | zero => exact Nat.zero_le _
    | succ n => exact lt_length_of_look (ne_nul_of_isLineEnd (hlook n (Nat.lt_succ_self n)))
  refine h.advance hn fun d hd => ?_
  obtain ⟨k, hk, rfl⟩ := List.mem_take_iff_getElem.1 hd
  have hlt : k < c.rest.length := by omega
  have hk := hlook k (by omega)
  rw [look, List.getD_eq_getElem _ _ hlt] at hk
  exact isBreak_of_isLineEnd hk

theorem Agrees.advance_one (h : c.Agrees origin) (hnext : isLineEnd c.next = false) :
    (c.advance 1).Agrees origin := by
  refine h.advance_of_look fun k hk => ?_
  obtain rfl : k = 0 := by omega
  exact hnext

theorem Agrees.advance_two (h : c.Agrees origin) (hnext : isLineEnd c.next = false)
    (hlook : isLineEnd (c.look 1) = false) : (c.advance 2).Agrees origin := by
  refine h.advance_of_look fun k hk => ?_
  obtain rfl | rfl : k = 0 ∨ k = 1 := by omega
  · exact hnext
  · exact hlook

theorem look_advance (c : Cursor) (n k : Nat) : (c.advance n).look k = c.look (n + k) := by
  simp [look, Cursor.advance]

theorem advance_advance (c : Cursor) (m n : Nat) : (c.advance m).advance n = c.advance (m + n) := by
  simp [Cursor.advance, Cursor.line, Cursor.column, Nat.add_assoc, Nat.sub_sub]

theorem advance_agrees (c : Cursor) (hlook : ∀ k < n, isLineEnd (c.look (1 + k)) = false) :
    (c.advance (1 + n)).Agrees (c.advance 1) := by
  rw [← advance_advance]
  exact (agrees_refl _).advance_of_look fun k hk => by rw [look_advance]; exact hlook k hk

/-- No line ends within a run of characters that end none. -/
theorem Agrees.advance_takeWhile {p : Char → Bool} (h : c.Agrees origin)
    (hp : ∀ d, p d = true → isBreak d = false) :
    (c.advance (c.rest.takeWhile p).length).Agrees origin := by
  have htake : c.rest.take (c.rest.takeWhile p).length = c.rest.takeWhile p :=
    (List.prefix_iff_eq_take.1 (List.takeWhile_prefix p)).symm
  refine h.advance (List.takeWhile_prefix p).length_le fun d hd => ?_
  rw [htake] at hd
  exact hp d (List.mem_takeWhile_imp hd)

theorem Agrees.skipAllBlanks (h : c.Agrees origin) : c.skipAllBlanks.Agrees origin :=
  h.advance_takeWhile fun _ hd => isBreak_of_isLineEnd (isLineEnd_of_isBlank hd)

theorem Agrees.span {p : Char → Bool} (h : c.Agrees origin)
    (hp : ∀ d, p d = true → isBreak d = false) : (c.span p).2.Agrees origin := by
  rw [Cursor.span]
  split
  · exact h
  · exact h.advance_takeWhile hp

theorem Agrees.skipLine (h : c.Agrees origin) : c.skipLine.Agrees origin := by
  refine h.span fun d hd => isBreak_of_isLineEnd ?_
  rwa [Bool.not_eq_true'] at hd

/-- Behind the end of a line the column is right again, whatever it was before. -/
theorem agrees_newline {k : Nat} (h : Reaches origin ⟨c.line, k⟩ c.rest)
    (hk : isBreak c.next = true ∨ k = c.column) : c.newline.Agrees origin := by
  unfold newline
  split
  · next cs hc =>
    rw [hc] at h
    exact h.returnLineFeed
  · next cs hc =>
    rw [hc] at h
    exact h.lineFeed
  · next cs hcs hc =>
    rw [hc] at h
    refine h.loneReturn fun hhead => ?_
    obtain ⟨cs', rfl⟩ := List.head?_eq_some_iff.1 hhead
    exact hcs cs' rfl
  · next hlf hcr =>
    obtain hbreak | rfl := hk
    · obtain ⟨cs, hcs⟩ := rest_eq_of_next (c := c) (by
        rintro hnul
        rw [hnul] at hbreak
        cases hbreak)
      rw [isBreak, Bool.or_eq_true, decide_eq_true_eq, decide_eq_true_eq] at hbreak
      obtain hbreak | hbreak := hbreak
      · rw [hbreak] at hcs
        exact absurd hcs (hlf cs)
      · rw [hbreak] at hcs
        exact absurd hcs (hcr cs)
    · exact h

theorem Agrees.newline (h : c.Agrees origin) : c.newline.Agrees origin :=
  agrees_newline h (.inr rfl)

/-- A run of characters is passed on its line. -/
theorem length_rest_span_le (p : Char → Bool) : (c.span p).2.rest.length ≤ c.rest.length := by
  rw [span]
  split
  · exact Nat.le_refl _
  · rw [length_rest_advance]
    exact Nat.sub_le _ _

/-- Blanks, and perhaps a comment, are passed on their line. -/
theorem skipTrailing_yields (c : Cursor) :
    Yields c.skipTrailing fun r => r.2.2.Agrees c ∧
      r.2.2.rest.length + (c.rest.takeWhile isBlank).length ≤ c.rest.length := by
  have hlength : (c.rest.takeWhile isBlank).length ≤ c.rest.length :=
    (List.takeWhile_prefix isBlank).length_le
  have hblanks : (c.skipBlanks (c.rest.takeWhile isBlank).length).rest.length +
      (c.rest.takeWhile isBlank).length ≤ c.rest.length := by
    show (c.rest.drop _).length + _ ≤ _
    rw [List.length_drop]
    omega
  rw [skipTrailing]
  split
  · split
    · exact yields_throw
    · refine yields_pure ⟨Agrees.skipLine (c := c.skipBlanks _) c.agrees_refl.skipAllBlanks, ?_⟩
      exact Nat.le_trans (Nat.add_le_add_right (length_rest_span_le _) _) hblanks
  · exact yields_pure ⟨c.agrees_refl.skipAllBlanks, hblanks⟩

theorem length_le_octets (cs : List Char) : cs.length ≤ cs.foldr (·.utf8Size + ·) 0 := by
  induction cs with
  | nil => exact Nat.le_refl 0
  | cons c cs ih =>
    rw [List.length_cons, List.foldr_cons, Nat.add_comm]
    exact Nat.add_le_add c.utf8Size_pos ih

/-- Verbatim text takes a column a character at least, so where the text ends behind it, the cursor
stands at the end or behind it. -/
theorem Agrees.skipVerbatim (h : (c.advance n).Agrees origin) (hn : n ≤ c.rest.length)
    (hrest : (c.advance n).rest = []) : (c.skipVerbatim n).Follows origin := by
  refine .inr ⟨hrest, (c.advance n).position, hrest ▸ h, ?_⟩
  have hunseen := length_le_octets ((c.rest.take n).drop c.seen)
  rw [List.length_drop, List.length_take, Nat.min_eq_left hn] at hunseen
  rw [Position.le_iff]
  refine .inr ⟨rfl, ?_⟩
  show c.column + n ≤ c.column + min n c.seen + _
  omega

end Cursor
end TestScript.Yaml
