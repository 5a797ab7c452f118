import TestScript.Proofs.Layout.Placed

/-!
# The tokens of a document flatten it

The tokens of a document that is laid out like a script are its entries in reading order. Each is
the token of its key, followed by those of its own value: a blob gives one object, a text its
words or itself, a list its texts, and nothing else gives any. The depth of a token is the level
at which its entry is nested, and the column of the key tells the same
(`flattens_of_tokensOf_eq_ok`).
-/

namespace TestScript.Script

open Document (Node Entry)

/-- Whether a token is that of a key. -/
def Token.isKey (t : Token) : Bool :=
  match t.kind with
  | .keyword _ | .identifier _ => true
  | .value _ | .object _ => false

/-! ## Roles -/

theorem Keyword.ofText?_eq_some_iff {key : String} {k : Keyword} :
    ofText? key = some k ↔ key = k.text := by
  constructor
  · intro h
    rw [ofText?] at h
    have htext := List.find?_some h
    exact (eq_of_beq htext).symm
  · intro h
    obtain rfl := h
    cases k <;> rfl

theorem Keyword.classify?_eq_some_iff {key : String} {depth : Nat} {k : Keyword} :
    classify? key depth = some k ↔ key = k.text ∧ depth ∈ k.depths := by
  simp [classify?, Option.filter_eq_some_iff, ofText?_eq_some_iff, allowedAt]

namespace Placed

variable {x : Placed}

/-- An entry is a keyword if it is spelled like one and stands at one of its depths. -/
theorem role_eq_keyword_iff {k : Keyword} :
    x.role = .keyword k ↔ x.entry.key = k.text ∧ x.level ∈ k.depths := by
  rw [← Keyword.classify?_eq_some_iff]
  unfold role Role.of
  cases Keyword.classify? x.entry.key x.level with
  | none => cases x.context <;> simp
  | some k' => simp

theorem keyToken_kind_eq_keyword_iff {k : Keyword} :
    x.keyToken.kind = .keyword k ↔ x.entry.key = k.text ∧ x.level ∈ k.depths := by
  rw [← role_eq_keyword_iff]
  show x.role.tokenKind x.entry.key = .keyword k ↔ _
  cases x.role <;> simp [Role.tokenKind]

/-- The key of an entry is a keyword where a keyword is spelled like it and may stand there. -/
def IsKeyword (x : Placed) (k : Keyword) : Prop :=
  x.entry.key = k.text ∧ x.level ∈ k.depths

/-- The token of a key is that keyword, or else an identifier with the text of the key. -/
theorem keyToken_classified (x : Placed) :
    (∃ k, x.IsKeyword k ∧ x.role = .keyword k ∧ x.keyToken.kind = .keyword k) ∨
      (∀ k, ¬ x.IsKeyword k ∧ x.role ≠ .keyword k) ∧
        x.keyToken.kind = .identifier x.entry.key := by
  have hiff : ∀ k, x.role = .keyword k ↔ x.IsKeyword k := fun k => role_eq_keyword_iff
  have hkind : x.keyToken.kind = x.role.tokenKind x.entry.key := rfl
  rw [hkind]
  cases hrole : x.role with
  | keyword k => exact .inl ⟨k, (hiff k).1 hrole, rfl, rfl⟩
  | step | other =>
    refine .inr ⟨fun k => ⟨fun hk => ?_, nofun⟩, rfl⟩
    cases hrole.symm.trans ((hiff k).2 hk)

theorem isKey_keyToken : x.keyToken.isKey = true := by
  rw [keyToken]
  cases x.role <;> rfl

end Placed

/-! ## The tokens of a value -/

/-- The tokens of a value are values and objects of the depth of its key. -/
theorem of_mem_ownTokens {role : Role} {level : Nat} {value : Node} {t : Token}
    (h : t ∈ ownTokens role level value) : t.isKey = false ∧ t.depth = level := by
  rw [ownTokens] at h
  split at h
  · obtain rfl := List.mem_singleton.1 h
    exact ⟨rfl, rfl⟩
  · obtain ⟨x, -, rfl⟩ := List.mem_map.1 h
    exact ⟨rfl, rfl⟩

/-- Among the tokens of some entries, those of keys are one for each entry. -/
theorem filter_isKey_flatMap_tokens (xs : List Placed) :
    (xs.flatMap Placed.tokens).filter Token.isKey = xs.map Placed.keyToken := by
  induction xs with
  | nil => rfl
  | cons x xs ih =>
    have hown : (ownTokens x.role x.level x.entry.value).filter Token.isKey = [] := by
      rw [List.filter_eq_nil_iff]
      intro t ht
      simp [(of_mem_ownTokens ht).1]
    rw [List.flatMap_cons, List.filter_append, ih, Placed.tokens,
      List.filter_cons_of_pos Placed.isKey_keyToken, hown, List.map_cons, List.singleton_append]

/-! ## Whole documents -/

/-- The tokens `ts` are the entries of `root` that do not stand in a blob, in reading order, where
a level is `unit` columns wide. -/
structure Flattens (unit : Nat) (root : Node) (ts : List Token) : Prop where
  eq_flatMap : ts = (placed root).flatMap fun x =>
    x.keyToken :: ownTokens x.role x.level x.entry.value
  keys_eq : ts.filter Token.isKey = (placed root).map Placed.keyToken
  keyToken_eq : ∀ x ∈ placed root,
    x.keyToken.position = x.entry.position ∧ x.keyToken.depth = x.level
  level_eq : ∀ x ∈ placed root, baseColumn root ≤ x.entry.position.column ∧
    x.level = (x.entry.position.column - baseColumn root) / unit
  classified : ∀ x ∈ placed root,
    (∃ k, x.IsKeyword k ∧ x.role = .keyword k ∧ x.keyToken.kind = .keyword k) ∨
      (∀ k, ¬ x.IsKeyword k ∧ x.role ≠ .keyword k) ∧ x.keyToken.kind = .identifier x.entry.key
  own : ∀ x ∈ placed root, x.role.Accepts x.entry.value ∧
    ∀ t ∈ ownTokens x.role x.level x.entry.value, t.isKey = false ∧ t.depth = x.level

/-- **The tokens of a document are its entries, each once and in reading order.** -/
theorem flattens_of_tokensOf_eq_ok {unit : Nat} {root : Node} {ts : List Token}
    (h : tokensOf unit root = .ok ts) : Flattens (max unit 1) root ts := by
  obtain ⟨-, hlaid, rfl⟩ := tokensOf_eq_ok_iff.1 h
  have hunit : 0 < max unit 1 := Nat.lt_of_lt_of_le Nat.zero_lt_one (Nat.le_max_right unit 1)
  refine ⟨rfl, filter_isKey_flatMap_tokens _, fun _ _ => ⟨rfl, rfl⟩, fun x hx => ?_,
    fun x _ => x.keyToken_classified, fun x hx => ⟨(hlaid x hx).accepts, fun _ => of_mem_ownTokens⟩⟩
  have hcolumn : x.entry.position.column = baseColumn root + x.level * max unit 1 :=
    (hlaid x hx).column_eq
  rw [hcolumn, Nat.add_sub_cancel_left, Nat.mul_div_cancel _ hunit]
  exact ⟨Nat.le_add_right _ _, rfl⟩

/-- Two marker names in one text, an input that is taken as a whole, and a key `issue` that is an
identifier at depth 1. -/
theorem flattens_two_markers :
    Flattens 2
      (.mapping
        [⟨"markers", ⟨0, 0⟩, .scalar "slow  smoke" false ⟨0, 9⟩⟩,
          ⟨"steps", ⟨1, 0⟩, .mapping
            [⟨"issue", ⟨2, 2⟩, .mapping
              [⟨"skip", ⟨3, 4⟩, .list [.scalar "a" true ⟨3, 11⟩, .null ⟨3, 14⟩] ⟨3, 10⟩⟩,
                ⟨"input", ⟨4, 4⟩, .mapping [⟨"use", ⟨4, 12⟩, .null ⟨4, 17⟩⟩] ⟨4, 11⟩ true⟩]
              ⟨3, 4⟩ false⟩]
            ⟨2, 2⟩ false⟩]
        ⟨0, 0⟩ false)
      [⟨.keyword .markers, ⟨0, 0⟩, 0⟩, ⟨.value "slow", ⟨0, 9⟩, 0⟩, ⟨.value "smoke", ⟨0, 9⟩, 0⟩,
        ⟨.keyword .steps, ⟨1, 0⟩, 0⟩, ⟨.identifier "issue", ⟨2, 2⟩, 1⟩,
        ⟨.keyword .skip, ⟨3, 4⟩, 2⟩, ⟨.value "a", ⟨3, 11⟩, 2⟩,
        ⟨.keyword .input, ⟨4, 4⟩, 2⟩, ⟨.object (.object [("use", .null)]), ⟨4, 11⟩, 2⟩] :=
  @flattens_of_tokensOf_eq_ok 2 _ _ (by rfl)

end TestScript.Script
