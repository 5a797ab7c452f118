import TestScript.Script.Layout

/-!
# The entries of a document in their places

Which entries of a document are looked at as keys, at which levels, is said here without any
tokens: all that do not stand in a blob, in reading order. `tokensOf_eq_ok_iff` then says when a
document is laid out like a script, and that its tokens are those of its entries, one entry after
the other.
-/

namespace TestScript.Script

open Document (Node Entry)
open Layout

theorem Keyword.shape_eq_names_iff {k : Keyword} : k.shape = .names ↔ k = .markers := by
  cases k <;> decide

/-! ## Entries in reading order -/

/-- Whether a key takes its value as a whole. -/
def Role.isBlob : Role → Bool
  | .keyword k =>
    match k.shape with
    | .blob _ => true
    | _ => false
  | .step | .other => false

/-- An entry of a document, its level, and what the keys beside it are. -/
structure Placed where
  level : Nat
  context : Context
  entry : Entry Node

mutual

/-- The entries of a mapping at a level, and all below them, in reading order. -/
def placedEntries (level : Nat) (context : Context) : List (Entry Node) → List Placed
  | [] => []
  | ⟨key, p, value⟩ :: entries =>
    ⟨level, context, ⟨key, p, value⟩⟩ ::
      placedBelow (level + 1) (Role.of key level context) value ++
        placedEntries level context entries

/-- The entries below a key; none below a blob. -/
def placedBelow (level : Nat) (role : Role) : Node → List Placed
  | .mapping entries _ _ =>
    if role.isBlob then [] else placedEntries level (role.opens.getD .body) entries
  | .list items _ => if role.isBlob then [] else placedItems level role items
  | .scalar .. | .null _ => []

/-- The entries below the items of a list. -/
def placedItems (level : Nat) (role : Role) : List Node → List Placed
  | [] => []
  | item :: items => placedBelow level role item ++ placedItems level role items

end

/-- The entries of a document that do not stand in a blob, in reading order. -/
def placed (root : Node) : List Placed :=
  placedBelow 0 .other root

/-! ## The tokens of an entry -/

/-- The text of an item of a list, with its place; none for a missing one. -/
def itemText : Node → Option (String × Position)
  | .scalar text _ p => some (text, p)
  | _ => none

/-- The text of a scalar, or its words with `split`, or the texts of a list, with their places. -/
def texts (split : Bool) : Node → List (String × Position)
  | .scalar text _ p => (if split then Text.words text else [text]).map fun word => (word, p)
  | .list items _ => items.filterMap itemText
  | .mapping .. | .null _ => []

/-- One value for each text. -/
def textTokens (level : Nat) (texts : List (String × Position)) : List Token :=
  texts.map fun x => ⟨.value x.1, x.2, level⟩

/-- The tokens of a value: one object for a blob, else those of its texts. -/
def ownTokens (role : Role) (level : Nat) (value : Node) : List Token :=
  if role.isBlob then [⟨.object value.toPayload, value.position, level⟩]
  else textTokens level (texts (role = .keyword .markers) value)

namespace Placed

/-- What a key is in its place. -/
def role (x : Placed) : Role :=
  Role.of x.entry.key x.level x.context

/-- The token of a key. -/
def keyToken (x : Placed) : Token :=
  ⟨x.role.tokenKind x.entry.key, x.entry.position, x.level⟩

/-- The tokens of an entry, without those of the entries below it. -/
def tokens (x : Placed) : List Token :=
  x.keyToken :: ownTokens x.role x.level x.entry.value

end Placed

/-! ## What a document must look like -/

/-- One scalar, or nothing. -/
def IsText : Node → Prop
  | .scalar .. | .null _ => True
  | .mapping .. | .list .. => False

/-- A scalar or a list of scalars, any of which may be missing. -/
def IsTexts : Node → Prop
  | .list items _ => ∀ item ∈ items, IsText item
  | value => IsText value

/-- A level of its own: a mapping that is not written inline unless it is empty, or nothing. -/
def IsLevel : Node → Prop
  | .mapping entries _ flow => flow = true → entries = []
  | .null _ => True
  | .list .. | .scalar .. => False

/-- A mapping, or, unless `mappingOnly`, a list, that is not empty. -/
def IsBlob (mappingOnly : Bool) : Node → Prop
  | .mapping entries _ _ => entries ≠ []
  | .list items _ => mappingOnly = false ∧ items ≠ []
  | .scalar .. | .null _ => False

/-- The values that a key may have. -/
def Role.Accepts : Role → Node → Prop
  | .keyword k, value =>
    match k.shape with
    | .steps => IsLevel value
    | .scalar => IsText value
    | .scalars | .names => IsTexts value
    | .blob mappingOnly => IsBlob mappingOnly value
  | .step, value => IsLevel value
  | .other, value => IsLevel value ∨ IsTexts value

/-- An entry is laid out like one of a script: it stands in the column of its level and has a
value that its key may have. -/
structure Placed.Laid (m : Margins) (x : Placed) : Prop where
  column_eq : x.entry.position.column = m.base + x.level * m.unit
  accepts : x.role.Accepts x.entry.value

/-! ## Nothing stands below a flat value -/

theorem placedBelow_of_isText {level : Nat} {role : Role} {value : Node} (h : IsText value) :
    placedBelow level role value = [] := by
  cases value with
  | scalar | null => rw [placedBelow]
  | mapping | list => exact h.elim

theorem placedItems_of_isText {level : Nat} {role : Role} {items : List Node}
    (h : ∀ item ∈ items, IsText item) : placedItems level role items = [] := by
  induction items with
  | nil => rw [placedItems]
  | cons item items ih =>
    rw [placedItems, placedBelow_of_isText (h item List.mem_cons_self),
      ih fun i hi => h i (List.mem_cons_of_mem _ hi), List.nil_append]

theorem placedBelow_of_isTexts {level : Nat} {role : Role} {value : Node} (h : IsTexts value) :
    placedBelow level role value = [] := by
  cases value with
  | list items p =>
    rw [placedBelow, placedItems_of_isText h, ite_self]
  | scalar | null => rw [placedBelow]
  | mapping => exact h.elim

theorem placedBelow_of_isBlob {level : Nat} {role : Role} {value : Node}
    (h : role.isBlob = true) : placedBelow level role value = [] := by
  cases value <;> simp [placedBelow, h]

namespace Layout

/-! ## Checks and flat values -/

theorem bind_eq_ok_iff {ε α β : Type} {x : Except ε α} {f : α → Except ε β} {b : β} :
    (x >>= f) = .ok b ↔ ∃ a, x = .ok a ∧ f a = .ok b := by
  cases x with
  | error e => exact ⟨(by cases ·), fun ⟨_, h, _⟩ => by cases h⟩
  | ok a => exact ⟨fun h => ⟨a, rfl, h⟩, fun ⟨_, h, hb⟩ => by cases h; exact hb⟩

theorem refuseShape_ne_ok {α : Type} {key expected : String} {value : Node} {a : α} :
    refuseShape key expected value ≠ .ok a :=
  fun h => by cases h

theorem checkColumn_eq_ok_iff {m : Margins} (hm : 0 < m.unit) {key : String} {p : Position}
    {level : Nat} :
    checkColumn m key p level = .ok () ↔ p.column = m.base + level * m.unit := by
  have hdiv := Nat.div_add_mod (p.column - m.base) m.unit
  rw [checkColumn]
  split
  · next h =>
    -- Left of the margin, or between two levels.
    refine ⟨(by cases ·), fun hp => ?_⟩
    have hoff : p.column - m.base = level * m.unit := by omega
    rw [hoff, Nat.mul_mod_left] at h
    omega
  · next h =>
    have hmod : (p.column - m.base) % m.unit = 0 := by omega
    have hbase : m.base ≤ p.column := by omega
    split
    · next hlevel =>
      refine ⟨(by cases ·), fun hp => absurd ?_ hlevel⟩
      have hoff : p.column - m.base = level * m.unit := by omega
      rw [hoff, Nat.mul_div_cancel _ hm]
    · next hlevel =>
      have hlevel : (p.column - m.base) / m.unit = level := by omega
      rw [hmod, hlevel, Nat.mul_comm] at hdiv
      exact ⟨fun _ => by omega, fun _ => rfl⟩

theorem itemTokens_eq_ok_iff {key : String} {level : Nat} {items : List Node} {ts : List Token} :
    itemTokens key level items = .ok ts ↔
      (∀ item ∈ items, IsText item) ∧ ts = textTokens level (items.filterMap itemText) := by
  induction items generalizing ts with
  | nil => simp [itemTokens, textTokens, eq_comm]
  | cons item items ih =>
    cases item with
    | scalar text quoted p =>
      rw [itemTokens, bind_eq_ok_iff]
      simp only [ih, List.forall_mem_cons]
      constructor
      · intro h
        obtain ⟨rest, ⟨hall, rfl⟩, h⟩ := h
        cases h
        exact ⟨⟨trivial, hall⟩, rfl⟩
      · intro h
        obtain ⟨⟨-, hall⟩, rfl⟩ := h
        exact ⟨_, ⟨hall, rfl⟩, rfl⟩
    | null p =>
      rw [itemTokens, ih, List.forall_mem_cons]
      exact and_congr_left fun _ => (and_iff_right trivial).symm
    | mapping entries p flow =>
      refine ⟨fun h => absurd h refuseShape_ne_ok, fun h => ?_⟩
      exact (h.1 _ List.mem_cons_self).elim
    | list items' p =>
      refine ⟨fun h => absurd h refuseShape_ne_ok, fun h => ?_⟩
      exact (h.1 _ List.mem_cons_self).elim

theorem scalarTokens_eq_ok_iff {key : String} {level : Nat} {split : Bool} {value : Node}
    {ts : List Token} :
    scalarTokens key level split value = .ok ts ↔
      IsTexts value ∧ ts = textTokens level (texts split value) := by
  cases value with
  | null p => simp [scalarTokens, textTokens, texts, IsTexts, IsText, eq_comm]
  | scalar text quoted p =>
    rw [scalarTokens, textTokens, texts, List.map_map]
    exact ⟨fun h => ⟨trivial, (Except.ok.inj h).symm⟩, fun h => congrArg _ h.2.symm⟩
  | list items p => exact itemTokens_eq_ok_iff
  | mapping entries p flow =>
    exact ⟨fun h => absurd h refuseShape_ne_ok, fun h => h.1.elim⟩

theorem blobTokens_eq_ok_iff {key : String} {p : Position} {level : Nat} {mappingOnly : Bool}
    {value : Node} {ts : List Token} :
    blobTokens key p level mappingOnly value = .ok ts ↔
      IsBlob mappingOnly value ∧ ts = [⟨.object value.toPayload, value.position, level⟩] := by
  cases value with
  | null q => simp [blobTokens, IsBlob, Node.isEmpty]
  | scalar text quoted q => simp [blobTokens, IsBlob, Node.isEmpty, refuseShape]
  | mapping entries q flow =>
    cases entries <;> simp [blobTokens, IsBlob, Node.isEmpty, eq_comm]
  | list items q =>
    cases items <;> cases mappingOnly <;>
      simp [blobTokens, IsBlob, Node.isEmpty, refuseShape, eq_comm]

/-- What a key makes of a value that opens no level. -/
theorem flatTokens_eq_ok_iff {key : String} {p : Position} {level : Nat} {role : Role}
    {value : Node} {ts : List Token}
    (hflat : ∀ entries q flow, value = .mapping entries q flow → role.opens = none) :
    flatTokens key p level role value = .ok ts ↔
      role.Accepts value ∧ ts = ownTokens role level value := by
  cases role with
  | step =>
    cases value with
    | null q => exact ⟨fun h => ⟨trivial, (Except.ok.inj h).symm⟩, fun h => congrArg _ h.2.symm⟩
    | scalar | list => exact ⟨fun h => absurd h refuseShape_ne_ok, fun h => h.1.elim⟩
    | mapping entries q flow => cases hflat entries q flow rfl
  | other =>
    have hlevel : IsLevel value ∨ IsTexts value ↔ IsTexts value := by
      cases value with
      | null | scalar | list => simp [IsLevel, IsTexts, IsText]
      | mapping entries q flow => cases hflat entries q flow rfl
    rw [flatTokens, scalarTokens_eq_ok_iff, Role.Accepts, hlevel]
    simp [ownTokens, Role.isBlob]
  | keyword k =>
    have hmarkers : (Role.keyword k = .keyword .markers) ↔ k.shape = .names := by
      rw [Role.keyword.injEq, Keyword.shape_eq_names_iff]
    simp only [flatTokens, Role.Accepts, ownTokens, Role.isBlob, hmarkers]
    cases hk : k.shape with
    | steps =>
      cases value with
      | null q => simp [IsLevel, textTokens, texts, eq_comm]
      | scalar | list => simp [IsLevel, refuseShape_ne_ok]
      | mapping entries q flow => simp [Role.opens, hk] at hflat
    | scalar =>
      cases value with
      | null | scalar => simp [IsText, textTokens, texts, eq_comm]
      | list | mapping => simp [IsText, refuseShape_ne_ok]
    | scalars => simpa using scalarTokens_eq_ok_iff
    | names => simpa using scalarTokens_eq_ok_iff
    | blob mappingOnly => exact blobTokens_eq_ok_iff

/-! ## Whole documents -/

/-- Below a key that opens no level, or a value that is no mapping, there is nothing. -/
theorem placedBelow_of_accepts {level : Nat} {role : Role} {value : Node}
    (hflat : ∀ entries q flow, value = .mapping entries q flow → role.opens = none)
    (h : role.Accepts value) : placedBelow level role value = [] := by
  cases hblob : role.isBlob with
  | true => exact placedBelow_of_isBlob hblob
  | false =>
    apply placedBelow_of_isTexts
    cases value with
    | null | scalar => trivial
    | mapping entries q flow =>
      cases role with
      | step | other => cases hflat entries q flow rfl
      | keyword k =>
        simp only [Role.isBlob, Role.Accepts, Role.opens] at hblob h hflat
        cases hk : k.shape <;> simp_all [IsTexts, IsText]
    | list items q =>
      cases role with
      | step => exact h.elim
      | other => exact h.resolve_left id
      | keyword k =>
        simp only [Role.isBlob, Role.Accepts] at hblob h
        cases hk : k.shape <;> simp_all [IsTexts, IsText, IsLevel]

theorem shape_of_opens {k : Keyword} {context : Context}
    (h : (Role.keyword k).opens = some context) : k.shape = .steps := by
  rw [Role.opens] at h
  split at h
  · assumption
  · cases h

/-- A key that opens a level accepts the mappings that are a level. -/
theorem accepts_mapping_of_opens {role : Role} {context : Context}
    (h : role.opens = some context) {entries : List (Entry Node)} {q : Position} {flow : Bool} :
    role.Accepts (.mapping entries q flow) ↔ (flow = true → entries = []) := by
  cases role with
  | step => exact Iff.rfl
  | other => exact or_iff_left id
  | keyword k =>
    simp only [Role.Accepts, shape_of_opens h]
    exact Iff.rfl

theorem isBlob_of_opens {role : Role} {context : Context} (h : role.opens = some context) :
    role.isBlob = false := by
  cases role with
  | step | other => rfl
  | keyword k => simp [Role.isBlob, shape_of_opens h]

/-- Below a key that opens a level stand the entries of its mapping, and it has no tokens but
theirs. -/
theorem placedBelow_mapping_of_opens {role : Role} {context : Context}
    (h : role.opens = some context) {level : Nat} {entries : List (Entry Node)} {q : Position}
    {flow : Bool} :
    placedBelow level role (.mapping entries q flow) = placedEntries level context entries := by
  simp [placedBelow, isBlob_of_opens h, h]

theorem ownTokens_mapping_of_opens {role : Role} {context : Context}
    (h : role.opens = some context) {level : Nat} {entries : List (Entry Node)} {q : Position}
    {flow : Bool} : ownTokens role level (.mapping entries q flow) = [] := by
  simp [ownTokens, isBlob_of_opens h, textTokens, texts]

/-- A flat value is laid out if its key accepts it. -/
theorem flatTokens_eq_ok_iff_laid (m : Margins) {key : String} {p : Position} {level : Nat}
    {role : Role} {value : Node} {ts : List Token}
    (hflat : ∀ entries q flow, value = .mapping entries q flow → role.opens = none) :
    flatTokens key p level role value = .ok ts ↔
      role.Accepts value ∧ (∀ x ∈ placedBelow (level + 1) role value, x.Laid m) ∧
        ts = ownTokens role level value ++
          (placedBelow (level + 1) role value).flatMap Placed.tokens := by
  rw [flatTokens_eq_ok_iff hflat]
  refine and_congr_right fun h => ?_
  rw [placedBelow_of_accepts hflat h, List.flatMap_nil, List.append_nil]
  exact ⟨fun h => ⟨fun _ hx => by simp at hx, h⟩, fun h => h.2⟩

mutual

/-- A mapping is laid out if all its entries are; then its tokens are theirs, in order. -/
theorem entryTokens_eq_ok_iff {m : Margins} (hm : 0 < m.unit) (level : Nat) (context : Context) :
    (entries : List (Entry Node)) → {ts : List Token} →
      (entryTokens m level context entries = .ok ts ↔
        (∀ x ∈ placedEntries level context entries, x.Laid m) ∧
          ts = (placedEntries level context entries).flatMap Placed.tokens)
  | [], ts => by simp [entryTokens, placedEntries, eq_comm]
  | ⟨key, p, value⟩ :: entries, ts => by
    have hvalue := @valueTokens_eq_ok_iff m hm key p level (Role.of key level context) value
    have hrest := @entryTokens_eq_ok_iff m hm level context entries
    simp only [entryTokens, placedEntries, bind_eq_ok_iff, hvalue, hrest, List.forall_mem_cons,
      List.cons_append, List.forall_mem_append, List.flatMap_cons, List.flatMap_append]
    constructor
    · intro h
      obtain ⟨⟨⟩, hcolumn, own, ⟨haccepts, hbelow, rfl⟩, rest, ⟨hentries, rfl⟩, h⟩ := h
      cases h
      refine ⟨⟨⟨(checkColumn_eq_ok_iff hm).1 hcolumn, haccepts⟩, hbelow, hentries⟩, ?_⟩
      simp [Placed.tokens, Placed.keyToken, Placed.role]
    · intro h
      obtain ⟨⟨⟨hcolumn, haccepts⟩, hbelow, hentries⟩, rfl⟩ := h
      refine ⟨(), (checkColumn_eq_ok_iff hm).2 hcolumn, _, ⟨haccepts, hbelow, rfl⟩, _,
        ⟨hentries, rfl⟩, ?_⟩
      simp [Placed.tokens, Placed.keyToken, Placed.role, pure, Except.pure]

/-- A value is laid out if its key accepts it and all entries below it are laid out. -/
theorem valueTokens_eq_ok_iff {m : Margins} (hm : 0 < m.unit) (key : String) (p : Position)
    (level : Nat) (role : Role) :
    (value : Node) → {ts : List Token} →
      (valueTokens m key p level role value = .ok ts ↔
        role.Accepts value ∧ (∀ x ∈ placedBelow (level + 1) role value, x.Laid m) ∧
          ts = ownTokens role level value ++
            (placedBelow (level + 1) role value).flatMap Placed.tokens)
  | .mapping entries q flow, ts => by
    rw [valueTokens]
    cases hopens : role.opens with
    | none => exact flatTokens_eq_ok_iff_laid m fun _ _ _ _ => hopens
    | some context =>
      have hentries := @entryTokens_eq_ok_iff m hm (level + 1) context entries
      rw [accepts_mapping_of_opens hopens, placedBelow_mapping_of_opens hopens,
        ownTokens_mapping_of_opens hopens, List.nil_append]
      cases flow with
      | false => simpa using hentries
      | true =>
        cases entries with
        | nil => simpa using hentries
        | cons e entries => simp
  | .list items q, ts => flatTokens_eq_ok_iff_laid m fun _ _ _ h => by cases h
  | .scalar text quoted q, ts => flatTokens_eq_ok_iff_laid m fun _ _ _ h => by cases h
  | .null q, ts => flatTokens_eq_ok_iff_laid m fun _ _ _ h => by cases h

end

end Layout

/-- What the root of a document must be. -/
def IsRoot : Node → Prop
  | .mapping _ _ flow => flow = false
  | .null _ => True
  | .list .. | .scalar .. => False

/-- The column of the first key of a document. -/
def baseColumn : Node → Nat
  | .mapping (e :: _) _ _ => e.position.column
  | _ => 0

/-- A document is laid out like a script if its root is a mapping, or missing, and each entry stands
in its column and has a value that its key may have. Its tokens are then those of its entries. -/
theorem tokensOf_eq_ok_iff {unit : Nat} {root : Node} {ts : List Token} :
    tokensOf unit root = .ok ts ↔
      IsRoot root ∧ (∀ x ∈ placed root, x.Laid ⟨baseColumn root, max unit 1⟩) ∧
        ts = (placed root).flatMap Placed.tokens := by
  cases root with
  | list | scalar => exact ⟨fun h => absurd h refuseShape_ne_ok, fun h => h.1.elim⟩
  | null p => simp [tokensOf, IsRoot, placed, placedBelow, eq_comm]
  | mapping entries p flow =>
    have hmargins : margins unit entries = ⟨baseColumn (.mapping entries p flow), max unit 1⟩ := by
      cases entries <;> rfl
    have hunit : 0 < (margins unit entries).unit := by
      rw [hmargins]
      exact Nat.lt_of_lt_of_le Nat.zero_lt_one (Nat.le_max_right unit 1)
    cases flow with
    | true => simp [tokensOf, IsRoot]
    | false =>
      rw [tokensOf, if_neg Bool.false_ne_true, entryTokens_eq_ok_iff hunit, hmargins]
      exact (and_iff_right rfl).symm

end TestScript.Script
