import TestScript.Proofs.FirstFault
import TestScript.Proofs.Layout.Placed

/-!
# The rules of the layout

An entry of a document keeps two rules: its key stands in the column of its level, and its value is
one that the key may have. What is reported of an entry that breaks them is said here entry by
entry, without any walk through the document (`Placed.Breaks`). The error of a document is that of
the first entry in reading order that breaks a rule (`tokensOf_eq_error_iff_first`).
-/

namespace TestScript.Script

open Document (Node Entry)
open Layout

/-! ## One value -/

/-- A list or a scalar. -/
def IsFlat : Node → Prop
  | .list .. | .scalar .. => True
  | .mapping .. | .null _ => False

/-- A mapping or a list. -/
def IsCollection : Node → Prop
  | .mapping .. | .list .. => True
  | .scalar .. | .null _ => False

/-- A value has the wrong shape for a key altogether; the words say what it should be. -/
inductive Role.Mismatch : Role → Node → String → Prop
  | steps {k : Keyword} {value : Node} (hk : k.shape = .steps) (h : IsFlat value) :
      Mismatch (.keyword k) value "a mapping of steps"
  | scalar {k : Keyword} {value : Node} (hk : k.shape = .scalar) (h : IsCollection value) :
      Mismatch (.keyword k) value "a scalar"
  | scalars {k : Keyword} {entries : List (Entry Node)} {q : Position} {flow : Bool}
      (hk : k.shape = .scalars ∨ k.shape = .names) :
      Mismatch (.keyword k) (.mapping entries q flow) "a scalar or a list of scalars"
  | blobScalar {k : Keyword} {mappingOnly : Bool} {text : String} {quoted : Bool} {q : Position}
      (hk : k.shape = .blob mappingOnly) :
      Mismatch (.keyword k) (.scalar text quoted q) "a mapping or a list"
  | blobList {k : Keyword} {items : List Node} {q : Position} (hk : k.shape = .blob true)
      (h : items ≠ []) : Mismatch (.keyword k) (.list items q) "a mapping"
  | step {value : Node} (h : IsFlat value) : Mismatch .step value "a mapping of step clauses"

/-- Whether a key may have a list of scalars. -/
def Role.TakesTexts : Role → Prop
  | .keyword k => k.shape = .scalars ∨ k.shape = .names
  | .step => False
  | .other => True

/-- What is reported of an item that has no place in a list of scalars. -/
def ItemFault (key : String) (item : Node) (e : LayoutError) : Prop :=
  IsCollection item ∧
    e = ⟨.unexpectedShape key "a list of scalars" item.kindName, item.position⟩

/-- What is reported of a value that a key may not have. -/
inductive Role.Refuses (key : String) (p : Position) : Role → Node → LayoutError → Prop
  | inlineMapping {role : Role} {context : Context} {entries : List (Entry Node)} {q : Position}
      (hrole : role.opens = some context) (h : entries ≠ []) :
      Refuses key p role (.mapping entries q true) ⟨.inlineMapping key, q⟩
  | emptyBlob {k : Keyword} {mappingOnly : Bool} {value : Node} (hk : k.shape = .blob mappingOnly)
      (h : value.isEmpty = true) : Refuses key p (.keyword k) value ⟨.emptyBlob key, p⟩
  | mismatch {role : Role} {value : Node} {expected : String} (h : role.Mismatch value expected) :
      Refuses key p role value ⟨.unexpectedShape key expected value.kindName, value.position⟩
  | item {role : Role} {items : List Node} {q : Position} {e : LayoutError}
      (hrole : role.TakesTexts) (h : FirstFault (ItemFault key) items e) :
      Refuses key p role (.list items q) e

/-! ## One entry -/

/-- What is reported of an entry that breaks a rule. The value is looked at only if the key stands
in its column. -/
inductive Placed.Breaks (m : Margins) (x : Placed) : LayoutError → Prop
  | misaligned
      (h : x.entry.position.column < m.base ∨ ¬ m.unit ∣ x.entry.position.column - m.base) :
      Breaks m x ⟨.misaligned x.entry.key m.unit, x.entry.position⟩
  | wrongLevel {found : Nat} (hcolumn : x.entry.position.column = m.base + found * m.unit)
      (h : found ≠ x.level) :
      Breaks m x ⟨.wrongLevel x.entry.key x.level found, x.entry.position⟩
  | value {e : LayoutError} (hcolumn : x.entry.position.column = m.base + x.level * m.unit)
      (h : x.role.Refuses x.entry.key x.entry.position x.entry.value e) : Breaks m x e

namespace Layout

variable {m : Margins} {key : String} {p : Position} {level : Nat} {role : Role} {value : Node}
  {e : LayoutError}

theorem bind_eq_error_iff {ε α β : Type} {x : Except ε α} {f : α → Except ε β} {e : ε} :
    (x >>= f) = .error e ↔ x = .error e ∨ ∃ a, x = .ok a ∧ f a = .error e := by
  cases x <;> simp [bind, Except.bind]

/-! ## Checks and flat values -/

/-- A key may stand left of the margin or between two levels, or else at the wrong level. -/
theorem checkColumn_eq_error_iff (hm : 0 < m.unit) :
    checkColumn m key p level = .error e ↔
      (p.column < m.base ∨ ¬ m.unit ∣ p.column - m.base) ∧ e = ⟨.misaligned key m.unit, p⟩ ∨
      ∃ found, p.column = m.base + found * m.unit ∧ found ≠ level ∧
        e = ⟨.wrongLevel key level found, p⟩ := by
  -- Either the column is not that of any level, or it is that of exactly one.
  have hoff : ∀ found, p.column = m.base + found * m.unit ↔
      m.base ≤ p.column ∧ p.column - m.base = m.unit * found := by
    intro found
    rw [Nat.mul_comm]
    omega
  rw [checkColumn]
  split
  · next h =>
    rw [ne_eq, ← Nat.dvd_iff_mod_eq_zero] at h
    constructor
    · intro he
      cases he
      exact .inl ⟨h, rfl⟩
    · rintro (⟨-, rfl⟩ | ⟨found, hcolumn, -⟩)
      · rfl
      · obtain ⟨hbase, hfound⟩ := (hoff found).1 hcolumn
        exact (h.elim (Nat.not_lt.2 hbase) (· ⟨found, hfound⟩)).elim
  · next h =>
    rw [ne_eq, ← Nat.dvd_iff_mod_eq_zero] at h
    have hbase : m.base ≤ p.column := Nat.not_lt.1 fun hlt => h (.inl hlt)
    obtain ⟨found, hfound⟩ := Decidable.not_not.1 fun hdvd => h (.inr hdvd)
    have hdiv : (p.column - m.base) / m.unit = found := by
      rw [hfound, Nat.mul_div_cancel_left _ hm]
    have hunique : ∀ n, p.column = m.base + n * m.unit → n = found := by
      intro n hn
      rw [← hdiv, ((hoff n).1 hn).2, Nat.mul_div_cancel_left _ hm]
    rw [hdiv]
    split
    · next hlevel =>
      constructor
      · intro he
        cases he
        exact .inr ⟨found, (hoff found).2 ⟨hbase, hfound⟩, hlevel, rfl⟩
      · rintro (⟨h', -⟩ | ⟨n, hn, -, rfl⟩)
        · exact (h h').elim
        · rw [hunique n hn]
    · next hlevel =>
      refine ⟨(by cases ·), ?_⟩
      rintro (⟨h', -⟩ | ⟨n, hn, hne, -⟩)
      · exact (h h').elim
      · exact absurd (hunique n hn) (Decidable.not_not.1 hlevel ▸ hne)

/-- A list of scalars is refused at the first collection in it. -/
theorem itemTokens_eq_error_iff {items : List Node} :
    itemTokens key level items = .error e ↔ FirstFault (ItemFault key) items e := by
  induction items with
  | nil => simp [itemTokens]
  | cons item items ih =>
    rw [firstFault_cons, ← ih]
    cases item with
    | scalar text quoted q =>
      simp [itemTokens, bind_eq_error_iff, ItemFault, IsCollection, pure, Except.pure]
    | null q => simp [itemTokens, ItemFault, IsCollection]
    | mapping | list => simp [itemTokens, ItemFault, IsCollection, refuseShape, eq_comm]

/-- What is reported of a flat value that its key may not have. -/
theorem flatTokens_of_refuses
    (hflat : ∀ entries q flow, value = .mapping entries q flow → role.opens = none)
    (h : role.Refuses key p value e) : flatTokens key p level role value = .error e := by
  cases h with
  | inlineMapping hrole =>
    rw [hflat _ _ _ rfl] at hrole
    cases hrole
  | emptyBlob hk hempty => simp [flatTokens, hk, blobTokens, hempty]
  | item hrole hitem =>
    have hitem := (@itemTokens_eq_error_iff key level _ _).2 hitem
    cases role with
    | keyword k => obtain hk | hk := hrole <;> simp [flatTokens, hk, scalarTokens, hitem]
    | step => exact hrole.elim
    | other => exact hitem
  | mismatch h =>
    cases h with
    | steps hk hvalue =>
      cases value with
      | scalar | list => simp [flatTokens, hk, refuseShape]
      | mapping | null => exact hvalue.elim
    | scalar hk hvalue =>
      cases value with
      | mapping | list => simp [flatTokens, hk, refuseShape]
      | scalar | null => exact hvalue.elim
    | scalars hk => obtain hk | hk := hk <;> simp [flatTokens, hk, scalarTokens, refuseShape]
    | blobScalar hk => simp [flatTokens, hk, blobTokens, Node.isEmpty, refuseShape]
    | blobList hk hitems => simp [flatTokens, hk, blobTokens, Node.isEmpty, hitems, refuseShape]
    | step hvalue =>
      cases value with
      | scalar | list => rfl
      | mapping | null => exact hvalue.elim

theorem scalarTokens_error {split : Bool} (hrole : role.TakesTexts)
    (hmapping : ∀ entries q flow, value = .mapping entries q flow →
      role.Mismatch value "a scalar or a list of scalars")
    (h : scalarTokens key level split value = .error e) : role.Refuses key p value e := by
  cases value with
  | null | scalar => cases h
  | list items q => exact .item hrole (itemTokens_eq_error_iff.1 h)
  | mapping entries q flow =>
    cases h
    exact .mismatch (hmapping _ _ _ rfl)

theorem blobTokens_error {k : Keyword} {mappingOnly : Bool} (hk : k.shape = .blob mappingOnly)
    (h : blobTokens key p level mappingOnly value = .error e) :
    (Role.keyword k).Refuses key p value e := by
  unfold blobTokens at h
  split at h
  · next hempty =>
    cases h
    exact .emptyBlob hk hempty
  · next hempty =>
    cases value with
    | null q => exact (hempty rfl).elim
    | scalar text quoted q =>
      cases h
      exact .mismatch (.blobScalar hk)
    | mapping entries q flow => cases h
    | list items q =>
      cases mappingOnly with
      | false => cases h
      | true =>
        cases h
        refine .mismatch (.blobList hk ?_)
        rintro rfl
        exact hempty rfl

/-- A flat value that is refused is one that its key may not have. -/
theorem refuses_of_flatTokens
    (hflat : ∀ entries q flow, value = .mapping entries q flow → role.opens = none)
    (h : flatTokens key p level role value = .error e) : role.Refuses key p value e := by
  cases role with
  | step =>
    cases value with
    | null => cases h
    | scalar | list =>
      cases h
      exact .mismatch (.step trivial)
    | mapping entries q flow => cases hflat _ _ _ rfl
  | other =>
    refine scalarTokens_error trivial (fun entries q flow hvalue => ?_) h
    cases hflat entries q flow hvalue
  | keyword k =>
    simp only [flatTokens] at h
    cases hk : k.shape with
    | steps =>
      rw [hk] at h
      cases value with
      | null => cases h
      | scalar | list =>
        cases h
        exact .mismatch (.steps hk trivial)
      | mapping entries q flow => simp [Role.opens, hk] at hflat
    | scalar =>
      rw [hk] at h
      cases value with
      | null | scalar => cases h
      | mapping | list =>
        cases h
        exact .mismatch (.scalar hk trivial)
    | scalars =>
      simp only [hk] at h
      refine scalarTokens_error (.inl hk) (fun entries q flow hvalue => ?_) h
      exact hvalue ▸ .scalars (.inl hk)
    | names =>
      simp only [hk] at h
      refine scalarTokens_error (.inr hk) (fun entries q flow hvalue => ?_) h
      exact hvalue ▸ .scalars (.inr hk)
    | blob mappingOnly =>
      simp only [hk] at h
      exact blobTokens_error hk h

theorem flatTokens_eq_error_iff
    (hflat : ∀ entries q flow, value = .mapping entries q flow → role.opens = none) :
    flatTokens key p level role value = .error e ↔ role.Refuses key p value e :=
  ⟨refuses_of_flatTokens hflat, flatTokens_of_refuses hflat⟩

/-! ## Values and entries -/

theorem refuses_mapping_of_opens {context : Context} (h : role.opens = some context)
    {entries : List (Entry Node)} {q : Position} {flow : Bool} :
    role.Refuses key p (.mapping entries q flow) e ↔
      flow = true ∧ entries ≠ [] ∧ e = ⟨.inlineMapping key, q⟩ := by
  constructor
  · intro hrefuses
    cases hrefuses with
    | inlineMapping _ hentries => exact ⟨rfl, hentries, rfl⟩
    | emptyBlob hk _ => simp [Role.opens, hk] at h
    | mismatch hmismatch =>
      cases hmismatch with
      | steps _ hvalue | step hvalue => exact hvalue.elim
      | scalar hk _ => simp [Role.opens, hk] at h
      | scalars hk => obtain hk | hk := hk <;> simp [Role.opens, hk] at h
  · rintro ⟨rfl, hentries, rfl⟩
    exact .inlineMapping h hentries

theorem accepts_iff_of_flat
    (hflat : ∀ entries q flow, value = .mapping entries q flow → role.opens = none) :
    role.Accepts value ↔ ∀ e, ¬ role.Refuses key p value e := by
  simp only [← @flatTokens_eq_error_iff key p 0 role value _ hflat]
  cases htokens : flatTokens key p 0 role value with
  | ok ts => simpa using ((flatTokens_eq_ok_iff hflat).1 htokens).1
  | error e =>
    simpa [htokens] using @flatTokens_eq_ok_iff key p 0 role value (ownTokens role 0 value) hflat

/-- A key may have the values for which nothing is reported. -/
theorem accepts_iff_not_refuses (key : String) (p : Position) :
    role.Accepts value ↔ ∀ e, ¬ role.Refuses key p value e := by
  cases value with
  | list | scalar | null => exact accepts_iff_of_flat nofun
  | mapping entries q flow =>
    cases hopens : role.opens with
    | none => exact accepts_iff_of_flat fun _ _ _ _ => hopens
    | some context =>
      simp only [accepts_mapping_of_opens hopens, refuses_mapping_of_opens hopens]
      constructor
      · rintro h e ⟨hflow, hentries, -⟩
        exact hentries (h hflow)
      · intro h hflow
        exact Decidable.not_not.1 fun hentries => h _ ⟨hflow, hentries, rfl⟩

end Layout

namespace Placed

variable {m : Margins} {x : Placed} {e : LayoutError}

/-- An entry breaks a rule where the check of its column or that of its value fails. -/
theorem breaks_iff (hm : 0 < m.unit) :
    x.Breaks m e ↔ checkColumn m x.entry.key x.entry.position x.level = .error e ∨
      checkColumn m x.entry.key x.entry.position x.level = .ok () ∧
        x.role.Refuses x.entry.key x.entry.position x.entry.value e := by
  rw [checkColumn_eq_error_iff hm, checkColumn_eq_ok_iff hm]
  constructor
  · intro h
    cases h with
    | misaligned h => exact .inl (.inl ⟨h, rfl⟩)
    | wrongLevel hcolumn h => exact .inl (.inr ⟨_, hcolumn, h, rfl⟩)
    | value hcolumn h => exact .inr ⟨hcolumn, h⟩
  · rintro ((⟨h, rfl⟩ | ⟨found, hcolumn, h, rfl⟩) | ⟨hcolumn, h⟩)
    · exact .misaligned h
    · exact .wrongLevel hcolumn h
    · exact .value hcolumn h

theorem laid_iff (hm : 0 < m.unit) :
    x.Laid m ↔ checkColumn m x.entry.key x.entry.position x.level = .ok () ∧
      x.role.Accepts x.entry.value :=
  ⟨fun h => ⟨(checkColumn_eq_ok_iff hm).2 h.column_eq, h.accepts⟩,
    fun h => ⟨(checkColumn_eq_ok_iff hm).1 h.1, h.2⟩⟩

/-- An entry is laid out if it breaks no rule. -/
theorem laid_iff_not_breaks (hm : 0 < m.unit) : x.Laid m ↔ ∀ e, ¬ x.Breaks m e := by
  rw [laid_iff hm]
  simp only [breaks_iff hm, not_or, not_and, forall_and]
  cases checkColumn m x.entry.key x.entry.position x.level with
  | error e => simp
  | ok u => simpa using accepts_iff_not_refuses _ _

end Placed

/-! ## Whole documents -/

namespace Layout

/-- Below a flat value no entry is reported. -/
theorem flatTokens_eq_error_iff_first (m : Margins) {key : String} {p : Position} {level : Nat}
    {role : Role} {value : Node} {e : LayoutError}
    (hflat : ∀ entries q flow, value = .mapping entries q flow → role.opens = none) :
    flatTokens key p level role value = .error e ↔
      role.Refuses key p value e ∨
        role.Accepts value ∧
          FirstFault (Placed.Breaks m) (placedBelow (level + 1) role value) e := by
  rw [flatTokens_eq_error_iff hflat]
  refine ⟨.inl, fun h => h.resolve_right fun ⟨haccepts, hbelow⟩ => ?_⟩
  rw [placedBelow_of_accepts hflat haccepts] at hbelow
  exact firstFault_nil hbelow

mutual

/-- The entries of a mapping are refused at the first entry, in reading order, that breaks a
rule. -/
theorem entryTokens_eq_error_iff {m : Margins} (hm : 0 < m.unit) (level : Nat)
    (context : Context) :
    (entries : List (Entry Node)) → {e : LayoutError} →
      (entryTokens m level context entries = .error e ↔
        FirstFault (Placed.Breaks m) (placedEntries level context entries) e)
  | [], e => by simp [entryTokens, placedEntries]
  | ⟨key, p, value⟩ :: entries, e => by
    have hvalue := @valueTokens_eq_error_iff m hm key p level (Role.of key level context) value
    have hrest := @entryTokens_eq_error_iff m hm level context entries
    have hok := @valueTokens_eq_ok_iff m hm key p level (Role.of key level context) value
    -- An entry comes first, then what stands below it, then the entries behind it. The walk fails
    -- in the same order: at the column, at the value with all below it, at the rest.
    rw [placedEntries, List.cons_append, firstFault_cons, ← Placed.laid_iff_not_breaks hm,
      firstFault_append, Placed.breaks_iff hm, Placed.laid_iff hm]
    simp only [← Placed.laid_iff_not_breaks hm, entryTokens, bind_eq_error_iff, hvalue, hrest, hok,
      Placed.role]
    cases checkColumn m key p level with
    | error e' => simp
    | ok u =>
      simp only [reduceCtorEq, pure, Except.pure, List.cons_append, and_false, exists_const,
        or_false, exists_and_right, exists_and_left, exists_eq, and_true, true_and, false_or]
      rw [or_assoc, and_assoc, ← and_or_left]

/-- A value is refused by its key, or else at the first entry below it that breaks a rule. -/
theorem valueTokens_eq_error_iff {m : Margins} (hm : 0 < m.unit) (key : String) (p : Position)
    (level : Nat) (role : Role) :
    (value : Node) → {e : LayoutError} →
      (valueTokens m key p level role value = .error e ↔
        role.Refuses key p value e ∨
          role.Accepts value ∧
            FirstFault (Placed.Breaks m) (placedBelow (level + 1) role value) e)
  | .mapping entries q flow, e => by
    rw [valueTokens]
    cases hopens : role.opens with
    | none => exact flatTokens_eq_error_iff_first m fun _ _ _ _ => hopens
    | some context =>
      have hentries := @entryTokens_eq_error_iff m hm (level + 1) context entries
      rw [accepts_mapping_of_opens hopens, refuses_mapping_of_opens hopens,
        placedBelow_mapping_of_opens hopens, ← hentries]
      cases flow with
      | false => simp
      | true =>
        cases entries with
        | nil => simp
        | cons e entries => simp [eq_comm]
  | .list items q, e => flatTokens_eq_error_iff_first m nofun
  | .scalar text quoted q, e => flatTokens_eq_error_iff_first m nofun
  | .null q, e => flatTokens_eq_error_iff_first m nofun

end

end Layout

/-- **The error of a document is that of the first entry that breaks a rule.** So a document whose
root is an indented mapping has an error if any of its entries does. -/
theorem tokensOf_eq_error_iff_first (unit : Nat) (entries : List (Entry Node)) (p : Position) :
    let root : Node := .mapping entries p false
    let m : Margins := ⟨baseColumn root, max unit 1⟩
    (∀ e, tokensOf unit root = .error e ↔
      ∃ before x after, placed root = before ++ x :: after ∧
        (∀ y ∈ before, ∀ e', ¬ y.Breaks m e') ∧ x.Breaks m e) ∧
    ((∃ e, tokensOf unit root = .error e) ↔ ∃ x ∈ placed root, ∃ e, x.Breaks m e) := by
  intro root m
  have hmargins : margins unit entries = m := by cases entries <;> rfl
  have hm : 0 < m.unit := Nat.lt_of_lt_of_le Nat.zero_lt_one (Nat.le_max_right unit 1)
  have hfirst : ∀ e, tokensOf unit root = .error e ↔
      FirstFault (Placed.Breaks m) (placed root) e := by
    intro e
    rw [tokensOf, if_neg Bool.false_ne_true, hmargins]
    exact entryTokens_eq_error_iff hm 0 .body entries
  refine ⟨hfirst, ?_⟩
  simp only [hfirst]
  exact exists_firstFault_iff

/-- Three faults: a list under a step, which stands at the wrong level as well, and before both an
input with nothing in it. -/
example : tokensOf 2 (.mapping
    [⟨"steps", ⟨0, 0⟩, .mapping
      [⟨"open", ⟨1, 2⟩, .mapping [⟨"input", ⟨2, 4⟩, .mapping [] ⟨2, 11⟩ false⟩] ⟨2, 4⟩ false⟩,
        ⟨"close", ⟨3, 4⟩, .list [] ⟨3, 11⟩⟩]
      ⟨1, 2⟩ false⟩]
    ⟨0, 0⟩ false) = .error ⟨.emptyBlob "input", ⟨2, 4⟩⟩ := by rfl

end TestScript.Script
