import TestScript.Proofs.Layout.Flattening
import TestScript.Proofs.Tree.Schema

/-!
# Entries and phrases

The tokens of the entries of a mapping are blocks, one for each entry: the token of its key, which
has the depth of the mapping, and tokens that belong under it. A form whose phrases begin with a
token of that depth therefore takes whole blocks (`derives_bind_flat`), and what it derives from
the tokens of a list of entries can be said of the entries.
-/

namespace TestScript.Script

open Document (Node Entry)

variable {α β : Type} {d : Nat} {context : Context} {e : Entry Node} {es : List (Entry Node)}

/-! ## Blocks -/

/-- The tokens of some entries at a level. -/
def flat (d : Nat) (context : Context) (es : List (Entry Node)) : List Token :=
  (placedEntries d context es).flatMap Placed.tokens

theorem placedEntries_cons :
    placedEntries d context (e :: es) =
      placedEntries d context [e] ++ placedEntries d context es := by
  simp [placedEntries]

theorem placedEntries_singleton :
    placedEntries d context [e] =
      ⟨d, context, e⟩ :: placedBelow (d + 1) (Role.of e.key d context) e.value := by
  simp [placedEntries]

theorem flat_cons : flat d context (e :: es) = flat d context [e] ++ flat d context es := by
  rw [flat, placedEntries_cons, List.flatMap_append]
  rfl

mutual

theorem le_level_of_mem_placedEntries {level : Nat} {context : Context} {x : Placed} :
    (entries : List (Entry Node)) → x ∈ placedEntries level context entries → level ≤ x.level
  | [], h => by simp [placedEntries] at h
  | ⟨key, p, value⟩ :: entries, h => by
    rw [placedEntries, List.mem_append, List.mem_cons] at h
    rcases h with (rfl | h) | h
    · exact Nat.le_refl _
    · exact Nat.le_of_succ_le (le_level_of_mem_placedBelow value h)
    · exact le_level_of_mem_placedEntries entries h

/-- What stands below a key is deeper. -/
theorem le_level_of_mem_placedBelow {level : Nat} {role : Role} {x : Placed} :
    (value : Node) → x ∈ placedBelow level role value → level ≤ x.level
  | .mapping entries p flow, h => by
    rw [placedBelow] at h
    split at h
    · simp at h
    · exact le_level_of_mem_placedEntries entries h
  | .list items p, h => by
    rw [placedBelow] at h
    split at h
    · simp at h
    · exact le_level_of_mem_placedItems items h
  | .scalar text quoted p, h => by simp [placedBelow] at h
  | .null p, h => by simp [placedBelow] at h

theorem le_level_of_mem_placedItems {level : Nat} {role : Role} {x : Placed} :
    (items : List Node) → x ∈ placedItems level role items → level ≤ x.level
  | [], h => by simp [placedItems] at h
  | item :: items, h => by
    rw [placedItems, List.mem_append] at h
    rcases h with h | h
    · exact le_level_of_mem_placedBelow item h
    · exact le_level_of_mem_placedItems items h

end

/-! ## Which tokens belong under a key -/

theorem isUnder_of_isKey_eq_false {t : Token} (h : t.isKey = false) : t.IsUnder d := by
  unfold Token.isKey at h
  unfold Token.IsUnder
  cases hk : t.kind <;> simp_all

theorem isUnder_iff_of_isKey {t : Token} (h : t.isKey = true) : t.IsUnder d ↔ d < t.depth := by
  unfold Token.isKey at h
  unfold Token.IsUnder
  cases hk : t.kind <;> simp_all

/-- The tokens of an entry but for that of its key. -/
def inner (d : Nat) (context : Context) (e : Entry Node) : List Token :=
  ownTokens (Role.of e.key d context) d e.value ++
    (placedBelow (d + 1) (Role.of e.key d context) e.value).flatMap Placed.tokens

theorem flat_singleton :
    flat d context [e] = Placed.keyToken ⟨d, context, e⟩ :: inner d context e := by
  rw [flat, placedEntries_singleton, List.flatMap_cons]
  rfl

theorem not_isUnder_keyToken : ¬ (Placed.keyToken ⟨d, context, e⟩).IsUnder d := by
  rw [isUnder_iff_of_isKey Placed.isKey_keyToken]
  exact Nat.lt_irrefl d

theorem isUnder_of_mem_inner {t : Token} (ht : t ∈ inner d context e) : t.IsUnder d := by
  rw [inner, List.mem_append, List.mem_flatMap] at ht
  rcases ht with ht | ⟨x, hx, ht⟩
  · exact isUnder_of_isKey_eq_false (of_mem_ownTokens ht).1
  · have hlevel : d + 1 ≤ x.level := le_level_of_mem_placedBelow e.value hx
    rw [Placed.tokens, List.mem_cons] at ht
    rcases ht with rfl | ht
    · rw [isUnder_iff_of_isKey Placed.isKey_keyToken]
      exact hlevel
    · exact isUnder_of_isKey_eq_false (of_mem_ownTokens ht).1

theorem not_isUnder_head_flat : ∀ t ∈ (flat d context es).head?, ¬ t.IsUnder d := by
  intro t ht
  cases es with
  | nil => simp [flat, placedEntries] at ht
  | cons e es =>
    rw [flat_cons, flat_singleton] at ht
    cases ht
    exact not_isUnder_keyToken

/-- Where a property fails first, two ways to cut a list agree. -/
theorem append_unique_of_head {P : Token → Prop} {b r u v : List Token} (hb : ∀ t ∈ b, P t)
    (hu : ∀ t ∈ u, P t) (hr : ∀ t ∈ r.head?, ¬ P t) (hv : ∀ t ∈ v.head?, ¬ P t)
    (h : b ++ r = u ++ v) : b = u ∧ r = v := by
  induction b generalizing u with
  | nil =>
    cases u with
    | nil => exact ⟨rfl, h⟩
    | cons t u =>
      obtain rfl : r = t :: u ++ v := h
      exact absurd (hu t List.mem_cons_self) (hr t rfl)
  | cons t b ih =>
    cases u with
    | nil =>
      obtain rfl : t :: b ++ r = v := h
      exact absurd (hb t List.mem_cons_self) (hv t rfl)
    | cons s u =>
      rw [List.cons_append, List.cons_append, List.cons.injEq] at h
      obtain ⟨rfl, h⟩ := h
      obtain ⟨rfl, rfl⟩ := ih (fun t ht => hb t (List.mem_cons_of_mem _ ht))
        (fun t ht => hu t (List.mem_cons_of_mem _ ht)) h
      exact ⟨rfl, rfl⟩

/-! ## Forms that take whole blocks -/

namespace Form

/-- Each phrase is one token, and behind it tokens that belong under a key of its depth. -/
def IsBlock (F : Form α) (d : Nat) : Prop :=
  ∀ w a, F.Derives w a → ∃ t u, w = t :: u ∧ ¬ t.IsUnder d ∧ ∀ x ∈ u, x.IsUnder d

/-- No phrase begins with a token that belongs under a key. -/
def IsFlush (F : Form α) (d : Nat) : Prop :=
  ∀ w a, F.Derives w a → ∀ t ∈ w.head?, ¬ t.IsUnder d

theorem Headed.isBlock {F : Form α} {heads : Set Token} (hF : F.Headed heads (under d))
    (h : ∀ t ∈ heads, ¬ t.IsUnder d) : F.IsBlock d := by
  intro w a hw
  obtain ⟨t, u, rfl, ht, hu⟩ := hF w a hw
  exact ⟨t, u, rfl, h t ht, hu⟩

theorem IsBlock.isFlush {F : Form α} (hF : F.IsBlock d) : F.IsFlush d := by
  intro w a h s hs
  obtain ⟨t, u, rfl, ht, -⟩ := hF w a h
  cases hs
  exact ht

theorem IsFlush.pure (a : α) : (Pure.pure a : Form α).IsFlush d := by
  intro w b h t ht
  obtain ⟨rfl, -⟩ := derives_pure.1 h
  cases ht

theorem IsBlock.isFlush_bind {F : Form α} {G : α → Form β} (hF : F.IsBlock d) :
    (F >>= G).IsFlush d := by
  intro w b h s hs
  obtain ⟨u, v, a, rfl, ha, -⟩ := derives_bind.1 h
  obtain ⟨t, u, rfl, ht, -⟩ := hF u a ha
  cases hs
  exact ht

theorem IsFlush.opt_bind {F : Form α} {G : Option α → Form β} (hF : F.IsBlock d)
    (hG : ∀ a, (G a).IsFlush d) : (F.opt >>= G).IsFlush d := by
  intro w b h s hs
  obtain ⟨u, v, a, rfl, ha, hb⟩ := derives_bind.1 h
  rcases derives_opt.1 ha with ⟨rfl, -⟩ | ⟨a, -, ha⟩
  · exact hG _ v b hb s hs
  · obtain ⟨t, u, rfl, ht, -⟩ := hF u a ha
    cases hs
    exact ht

theorem IsFlush.many {F : Form α} (hF : F.IsBlock d) : F.many.IsFlush d := by
  intro w as h s hs
  cases as with
  | nil =>
    obtain rfl := derives_many_nil.1 h
    cases hs
  | cons a as =>
    obtain ⟨u, v, rfl, ha, -⟩ := derives_many_cons.1 h
    obtain ⟨t, u, rfl, ht, -⟩ := hF u a ha
    cases hs
    exact ht

theorem Same.isFlush {F G : Form α} (h : F.Same G) (hG : G.IsFlush d) : F.IsFlush d :=
  fun w a ha => hG w a ((h w a).1 ha)

/-- The tokens of some entries can be cut behind a block between two entries only. -/
theorem IsBlock.cut {F : Form α} (hF : F.IsBlock d) {u v : List Token} {a : α}
    (ha : F.Derives u a) (hv : ∀ t ∈ v.head?, ¬ t.IsUnder d) (h : flat d context es = u ++ v) :
    ∃ e es', es = e :: es' ∧ flat d context [e] = u ∧ flat d context es' = v := by
  obtain ⟨t, u, rfl, ht, hu⟩ := hF u a ha
  cases es with
  | nil => simp [flat, placedEntries] at h
  | cons e es =>
    refine ⟨e, es, rfl, ?_⟩
    -- Both cuts stand in front of the first token that does not belong under the key.
    rw [flat_cons, flat_singleton, List.cons_append, List.cons_append, List.cons.injEq] at h
    obtain ⟨rfl, h⟩ := h
    obtain ⟨hinner, hrest⟩ := append_unique_of_head (fun _ ht => isUnder_of_mem_inner ht) hu
      not_isUnder_head_flat hv h
    rw [flat_singleton, hinner]
    exact ⟨rfl, hrest⟩

/-- A form of blocks takes the first entry, and what is behind it begins with the next. -/
theorem IsBlock.derives_bind_flat {F : Form α} {G : α → Form β} {b : β} (hF : F.IsBlock d)
    (hG : ∀ a, (G a).IsFlush d) :
    (F >>= G).Derives (flat d context es) b ↔ ∃ e es', es = e :: es' ∧
      ∃ a, F.Derives (flat d context [e]) a ∧ (G a).Derives (flat d context es') b := by
  rw [derives_bind]
  constructor
  · intro h
    obtain ⟨u, v, a, h, ha, hb⟩ := h
    obtain ⟨e, es', rfl, rfl, rfl⟩ := hF.cut ha (hG a v b hb) h
    exact ⟨e, es', rfl, a, ha, hb⟩
  · intro h
    obtain ⟨e, es', rfl, a, ha, hb⟩ := h
    exact ⟨_, _, a, flat_cons, ha, hb⟩

end Form
end TestScript.Script
