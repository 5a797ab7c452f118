import Mathlib.Data.List.TakeWhile
import TestScript.Proofs.Number.Rounding

/-!
# Numbers written in decimal

What an integer and a decimal look like, and which number each denotes, said without reading them. An
integer literal is read as the integer it denotes (`readInteger?_eq_some_iff`). A decimal is read as
the number nearest to what it denotes, and nothing else is read as a number (`Double.read?_spec`).
-/

namespace TestScript.Number

/-! ## Forms -/

/-- An optional sign, and whether it is a minus. -/
inductive IsSign : List Char → Bool → Prop
  | none : IsSign [] false
  | plus : IsSign ['+'] false
  | minus : IsSign ['-'] true

theorem isSign_false_iff {cs : List Char} : IsSign cs false ↔ cs = [] ∨ cs = ['+'] := by
  constructor
  · intro h
    cases h with
    | none => exact .inl rfl
    | plus => exact .inr rfl
  · rintro (rfl | rfl)
    · exact .none
    · exact .plus

/-- The digits of a decimal denote their sum, each times the power of ten of its place. -/
def digitsValue (ds : List Char) : Nat :=
  Nat.ofDigits 10 (ds.map fun c => c.toNat - '0'.toNat).reverse

/-- An integer literal, and the integer it denotes: a sign if any, and digits. -/
inductive DenotesInteger : List Char → Int → Prop
  | plus {sign ds : List Char} (hsign : IsSign sign false) (hne : ds ≠ [])
    (hds : ∀ c ∈ ds, c.isDigit) : DenotesInteger (sign ++ ds) (digitsValue ds)
  | minus {ds : List Char} (hne : ds ≠ []) (hds : ∀ c ∈ ds, c.isDigit) :
    DenotesInteger ('-' :: ds) (-digitsValue ds)

/-- A fraction, and its digits: nothing, or a point with digits behind it. -/
inductive IsFraction : List Char → List Char → Prop
  | none : IsFraction [] []
  | point {ds : List Char} (hds : ∀ c ∈ ds, c.isDigit) : IsFraction ('.' :: ds) ds

/-- An exponent, and the integer it denotes: nothing, or an integer behind `e`. -/
inductive IsExponent : List Char → Int → Prop
  | none : IsExponent [] 0
  | some {c : Char} {cs : List Char} {e : Int} (hc : c = 'e' ∨ c = 'E') (h : DenotesInteger cs e) :
    IsExponent (c :: cs) e

/-- A decimal, whether it has a minus, and the size it denotes. In front of the point or behind it
there is a digit. -/
inductive DenotesDecimal : List Char → Bool → ℚ → Prop
  | mk {sign whole fraction ds tail : List Char} {negative : Bool} {e : Int}
    (hsign : IsSign sign negative) (hwhole : ∀ c ∈ whole, c.isDigit)
    (hfraction : IsFraction fraction ds) (hne : whole ++ ds ≠ []) (htail : IsExponent tail e) :
    DenotesDecimal (sign ++ (whole ++ (fraction ++ tail))) negative
      (digitsValue (whole ++ ds) * 10 ^ (e - ds.length))

/-! ## Integers -/

theorem ofDigitsFrom_eq (start : Nat) (ds : List Char) :
    ofDigitsFrom start ds = digitsValue ds + 10 ^ ds.length * start := by
  induction ds generalizing start with
  | nil => simp [ofDigitsFrom, digitsValue]
  | cons d ds ih =>
    have hvalue : digitsValue (d :: ds) =
        digitsValue ds + 10 ^ ds.length * (d.toNat - '0'.toNat) := by
      rw [digitsValue, List.map_cons, Nat.ofDigits_reverse_cons, List.length_map, digitsValue]
    have hfrom : ofDigitsFrom start (d :: ds) = ofDigitsFrom (10 * start + (d.toNat - '0'.toNat)) ds :=
      rfl
    rw [hfrom, ih, hvalue, List.length_cons, pow_succ]
    ring

theorem ofDigits_eq_digitsValue (ds : List Char) : ofDigits ds = digitsValue ds := by
  rw [ofDigits, ofDigitsFrom_eq, Nat.mul_zero, Nat.add_zero]

/-- A sign is taken off; what is left is told by what stands behind it. -/
theorem exists_isSign_splitSign (cs : List Char) :
    ∃ sign, IsSign sign (splitSign cs).1 ∧ cs = sign ++ (splitSign cs).2 := by
  unfold splitSign
  split
  · exact ⟨_, .minus, rfl⟩
  · exact ⟨_, .plus, rfl⟩
  · exact ⟨_, .none, rfl⟩

theorem splitSign_append {sign body : List Char} {negative : Bool} (hsign : IsSign sign negative)
    (hbody : ∀ c ∈ body.head?, c ≠ '-' ∧ c ≠ '+') :
    splitSign (sign ++ body) = (negative, body) := by
  cases hsign with
  | plus | minus => rfl
  | none =>
    rw [List.nil_append, splitSign.eq_3]
    · rintro cs rfl
      exact (hbody '-' rfl).1 rfl
    · rintro cs rfl
      exact (hbody '+' rfl).2 rfl

theorem not_sign_of_isDigit {c : Char} (h : c.isDigit) : c ≠ '-' ∧ c ≠ '+' := by
  constructor <;> rintro rfl <;> exact absurd h (by decide)

/-- **An integer literal is read as the integer that it denotes**, and nothing else is read. -/
theorem readInteger?_eq_some_iff {cs : List Char} {n : Int} :
    readInteger? cs = some n ↔ DenotesInteger cs n := by
  have hread : ∀ {sign ds : List Char} {negative : Bool}, IsSign sign negative → ds ≠ [] →
      (∀ c ∈ ds, c.isDigit) → readInteger? (sign ++ ds) =
        some (if negative then -(digitsValue ds : Int) else digitsValue ds) := by
    intro sign ds negative hsign hne hds
    have hhead : ∀ c ∈ ds.head?, c ≠ '-' ∧ c ≠ '+' := fun c hc =>
      not_sign_of_isDigit (hds c (List.mem_of_mem_head? hc))
    rw [readInteger?, splitSign_append hsign hhead]
    simp only [isDigits_iff.2 ⟨hne, hds⟩, if_true, ofDigits_eq_digitsValue]
  constructor
  · intro h
    obtain ⟨sign, hsign, hcs⟩ := exists_isSign_splitSign cs
    rw [readInteger?] at h
    generalize splitSign cs = split at *
    obtain ⟨negative, ds⟩ := split
    dsimp only at *
    split at h
    · next hdigits =>
      obtain ⟨hne, hds⟩ := isDigits_iff.1 hdigits
      cases h
      rw [hcs, ofDigits_eq_digitsValue]
      cases hsign with
      | none => exact .plus .none hne hds
      | plus => exact .plus .plus hne hds
      | minus => exact .minus hne hds
    · cases h
  · intro h
    cases h with
    | plus hsign hne hds => exact hread hsign hne hds
    | minus hne hds => exact hread .minus hne hds

/-! ## Decimals -/

theorem IsExponent.head {cs : List Char} {e : Int} (h : IsExponent cs e) :
    ∀ c ∈ cs.head?, c.isDigit = false ∧ c ≠ '.' := by
  cases h with
  | none => simp
  | some hc => rcases hc with rfl | rfl <;> simp [Char.isDigit]

/-- The digits in front are told apart by what stands behind them. -/
theorem span_isDigit {ds rest : List Char} (hds : ∀ c ∈ ds, c.isDigit)
    (hrest : ∀ c ∈ rest.head?, c.isDigit = false) :
    (ds ++ rest).takeWhile Char.isDigit = ds ∧ (ds ++ rest).dropWhile Char.isDigit = rest := by
  rw [List.takeWhile_append_of_pos hds, List.dropWhile_append_of_pos hds]
  cases rest with
  | nil => simp
  | cons c rest =>
    have hc : ¬ c.isDigit = true := by simp [hrest c rfl]
    rw [List.takeWhile_cons_of_neg hc, List.dropWhile_cons_of_neg hc, List.append_nil]
    exact ⟨rfl, rfl⟩

/-- In a decimal the sign is told apart by what stands behind it: a digit or a point. -/
theorem head_of_fraction {whole fraction ds : List Char} (tail : List Char)
    (hwhole : ∀ c ∈ whole, c.isDigit) (hfraction : IsFraction fraction ds)
    (hne : whole ++ ds ≠ []) :
    ∀ c ∈ (whole ++ (fraction ++ tail)).head?, c ≠ '-' ∧ c ≠ '+' := by
  intro c hc
  cases whole with
  | cons d whole =>
    obtain rfl : d = c := by simpa using hc
    exact not_sign_of_isDigit (hwhole d List.mem_cons_self)
  | nil =>
    cases hfraction with
    | none => exact absurd rfl hne
    | point =>
      obtain rfl : '.' = c := by simpa using hc
      decide

namespace Double

theorem readExponent?_eq_some_iff {cs : List Char} {e : Int} :
    readExponent? cs = some e ↔ IsExponent cs e := by
  cases cs with
  | nil =>
    rw [readExponent?]
    constructor
    · rintro ⟨⟩
      exact .none
    · rintro ⟨⟩
      rfl
  | cons c cs =>
    rw [readExponent?]
    constructor
    · intro h
      split at h
      · next hc => exact .some hc (readInteger?_eq_some_iff.1 h)
      · cases h
    · intro h
      cases h with
      | some hc h => rw [if_pos hc, readInteger?_eq_some_iff.2 h]

theorem read?_append {sign whole fraction ds tail : List Char} {negative : Bool} {e : Int}
    (hsign : IsSign sign negative) (hwhole : ∀ c ∈ whole, c.isDigit)
    (hfraction : IsFraction fraction ds) (hne : whole ++ ds ≠ []) (htail : IsExponent tail e) :
    read? (sign ++ (whole ++ (fraction ++ tail))) =
      ofDecimal? negative (digitsValue (whole ++ ds)) (e - ds.length) := by
  have hdigits : (whole ++ ds).isEmpty = false := List.isEmpty_eq_false_iff.2 hne
  have htail' : ∀ c ∈ tail.head?, c.isDigit = false := fun c hc => (htail.head c hc).1
  rw [read?, splitSign_append hsign (head_of_fraction tail hwhole hfraction hne)]
  dsimp only
  cases hfraction with
  | none =>
    rw [List.nil_append, (span_isDigit hwhole htail').1, (span_isDigit hwhole htail').2]
    split
    · exact absurd rfl (htail.head '.' rfl).2
    · dsimp only
      rw [hdigits, if_neg Bool.false_ne_true, readExponent?_eq_some_iff.2 htail,
        ofDigits_eq_digitsValue]
  | point hds =>
    have hpoint : ∀ c ∈ (('.' :: ds) ++ tail).head?, c.isDigit = false := by simp [Char.isDigit]
    rw [(span_isDigit hwhole hpoint).1, (span_isDigit hwhole hpoint).2]
    split
    · next more heq =>
      obtain rfl : ds ++ tail = more := (List.cons.inj heq).2
      rw [(span_isDigit hds htail').1, (span_isDigit hds htail').2]
      dsimp only
      rw [hdigits, if_neg Bool.false_ne_true, readExponent?_eq_some_iff.2 htail,
        ofDigits_eq_digitsValue]
    · next hnot => exact absurd rfl (hnot _)

/-- **A decimal is read as the number nearest to what it denotes**, and is not read when that is too
large for the format. -/
theorem read?_spec {cs : List Char} {negative : Bool} {v : ℚ} (h : DenotesDecimal cs negative v) :
    (v < overflow → ∃ x, read? cs = some x ∧ x.negative = negative ∧ IsNearest v x) ∧
    (overflow ≤ v → read? cs = none) := by
  cases h with
  | mk hsign hwhole hfraction hne htail =>
    rw [read?_append hsign hwhole hfraction hne htail]
    exact ofDecimal?_spec _ _ _

/-- What is read has digits, and behind them nothing or an exponent. -/
theorem isExponent_of_eq_some {digits tail : List Char} {read : Int → Option Double} {x : Double}
    (h : (if digits.isEmpty then none
      else match readExponent? tail with
        | none => none
        | some e => read e) = some x) :
    digits ≠ [] ∧ ∃ e, IsExponent tail e := by
  split at h
  · cases h
  · next hne =>
    refine ⟨fun hnil => hne (List.isEmpty_iff.2 hnil), ?_⟩
    split at h
    · cases h
    · next e he => exact ⟨e, readExponent?_eq_some_iff.1 he⟩

/-- Nothing but a decimal is read as a number. -/
theorem denotesDecimal_of_read? {cs : List Char} {x : Double} (h : read? cs = some x) :
    ∃ negative v, DenotesDecimal cs negative v := by
  obtain ⟨sign, hsign, hcs⟩ := exists_isSign_splitSign cs
  rw [read?] at h
  generalize splitSign cs = parts at *
  obtain ⟨negative, body⟩ := parts
  dsimp only at *
  have hwhole : ∀ c ∈ body.takeWhile Char.isDigit, c.isDigit := fun c => List.mem_takeWhile_imp
  have hbody : body = body.takeWhile Char.isDigit ++ body.dropWhile Char.isDigit :=
    (List.takeWhile_append_dropWhile).symm
  generalize body.takeWhile Char.isDigit = whole at *
  generalize body.dropWhile Char.isDigit = rest at *
  subst hcs hbody
  split at h
  · next more =>
    have hmore : more = more.takeWhile Char.isDigit ++ more.dropWhile Char.isDigit :=
      (List.takeWhile_append_dropWhile).symm
    have hds : ∀ c ∈ more.takeWhile Char.isDigit, c.isDigit := fun c => List.mem_takeWhile_imp
    dsimp only at h
    generalize more.takeWhile Char.isDigit = ds at *
    generalize more.dropWhile Char.isDigit = tail at *
    subst hmore
    obtain ⟨hne, e, htail⟩ := isExponent_of_eq_some h
    rw [← List.cons_append]
    exact ⟨_, _, .mk hsign hwhole (.point hds) hne htail⟩
  · obtain ⟨hne, e, htail⟩ := isExponent_of_eq_some h
    exact ⟨_, _, .mk hsign hwhole .none hne htail⟩

end Double
end TestScript.Number
