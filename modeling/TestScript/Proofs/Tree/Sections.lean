import TestScript.Proofs.Tree.Blocks

/-!
# Sections

A section is a mapping whose keys fill slots in order. A form of clauses derives the tokens of a
mapping exactly if the mapping is such a section, and what it gives is found under the keys
(`ReadsSection`). A clause in front of a section adds a slot that may be left out
(`ReadsSection.optional`) or must not be (`ReadsSection.required`).
-/

namespace TestScript.Script

open Document (Node Entry)

variable {α β : Type} {d : Nat} {context : Context} {e : Entry Node} {es : List (Entry Node)}
  {slot : Slot} {slots : List Slot} {k : Keyword} {IsStep : Node → Prop}

/-! ## Keys in order -/

theorem InOrder.of_mem {keys : List String} (h : InOrder slots keys) {key : String}
    (hkey : key ∈ keys) : ∃ slot ∈ slots, ∃ k ∈ slot.keywords, key = k.text := by
  induction h with
  | nil => cases hkey
  | @take slot slots k keys hk h ih =>
    rcases List.mem_cons.1 hkey with rfl | hkey
    · exact ⟨slot, List.mem_cons_self, k, hk, rfl⟩
    · obtain ⟨slot', hslot', hk'⟩ := ih hkey
      exact ⟨slot', List.mem_cons_of_mem _ hslot', hk'⟩
  | leave hopt h ih =>
    obtain ⟨slot', hslot', hk'⟩ := ih hkey
    exact ⟨slot', List.mem_cons_of_mem _ hslot', hk'⟩

theorem isSection_nil : IsSection [] IsStep es ↔ es = [] := by
  constructor
  · intro h
    cases es with
    | nil => rfl
    | cons e es => cases h.1
  · intro h
    subst h
    exact ⟨.nil, fun e he => by cases he⟩

/-- The first slot of a section is left out, or the first entry fills it. -/
theorem isSection_cons :
    IsSection (slot :: slots) IsStep es ↔
      (slot.isOptional = true ∧ IsSection slots IsStep es) ∨
        ∃ e es', es = e :: es' ∧ (∃ k ∈ slot.keywords, e.key = k.text ∧ Holds IsStep k e.value) ∧
          IsSection slots IsStep es' := by
  constructor
  · intro h
    obtain ⟨horder, hholds⟩ := h
    generalize hkeys : es.map Entry.key = keys at horder
    cases horder with
    | leave hopt h =>
      subst hkeys
      exact .inl ⟨hopt, h, hholds⟩
    | @take _ _ k keys hk h =>
      obtain ⟨e, es', rfl, hkey, rfl⟩ := List.map_eq_cons_iff.1 hkeys
      refine .inr ⟨e, es', rfl, ⟨k, hk, hkey, ?_⟩, h, fun e' he' => ?_⟩
      · exact hholds e List.mem_cons_self k hkey
      · exact hholds e' (List.mem_cons_of_mem _ he')
  · intro h
    rcases h with ⟨hopt, h⟩ | ⟨e, es', rfl, ⟨k, hk, hkey, hvalue⟩, h⟩
    · exact ⟨.leave hopt h.1, h.2⟩
    · refine ⟨?_, fun e' he' k' hk' => ?_⟩
      · rw [List.map_cons, hkey]
        exact .take hk h.1
      · rcases List.mem_cons.1 he' with rfl | he'
        · obtain rfl := Keyword.text_injective (hkey.symm.trans hk')
          exact hvalue
        · exact h.2 e' he' k' hk'

/-! ## Finding an entry -/

theorem clauseOf_cons_self (h : e.key = k.text) : clauseOf (e :: es) k = some e := by
  simp [clauseOf, h]

theorem clauseOf_cons_of_ne {k' : Keyword} (h : e.key = k.text) (hne : k ≠ k') :
    clauseOf (e :: es) k' = clauseOf es k' := by
  have htext : ¬ k.text = k'.text := fun h => hne (Keyword.text_injective h)
  simp [clauseOf, h, htext]

theorem clauseOf_eq_none (h : InOrder slots (es.map Entry.key))
    (hk : ∀ slot ∈ slots, k ∉ slot.keywords) : clauseOf es k = none := by
  rw [clauseOf, List.find?_eq_none]
  intro e he hkey
  obtain ⟨slot, hslot, k', hk', hkey'⟩ := h.of_mem (List.mem_map_of_mem he)
  obtain rfl := Keyword.text_injective ((eq_of_beq hkey).symm.trans hkey')
  exact hk slot hslot hk'

/-- What the entry of one of some keywords gives. -/
def among (ks : List Keyword) (of : Keyword → Entry Node → α)
    (clause : Keyword → Option (Entry Node)) : Option α :=
  ks.findSome? fun k => (clause k).map (of k)

variable {ks : List Keyword} {of : Keyword → Entry Node → α}

theorem among_eq_none (h : InOrder slots (es.map Entry.key))
    (hks : ∀ slot ∈ slots, ∀ k ∈ ks, k ∉ slot.keywords) :
    among ks of (clauseOf es) = none := by
  rw [among, List.findSome?_eq_none_iff]
  intro k hk
  rw [clauseOf_eq_none h fun slot hslot => hks slot hslot k hk, Option.map_none]

theorem among_cons (hk : k ∈ ks) (hkey : e.key = k.text) (h : InOrder slots (es.map Entry.key))
    (hks : ∀ slot ∈ slots, ∀ k ∈ ks, k ∉ slot.keywords) :
    among ks of (clauseOf (e :: es)) = some (of k e) := by
  induction ks with
  | nil => cases hk
  | cons k' ks ih =>
    rw [among, List.findSome?_cons]
    -- Only `k` finds an entry: the keys behind the first one are not in `ks`.
    by_cases hne : k = k'
    · subst hne
      rw [clauseOf_cons_self hkey]
      rfl
    · have hnone : clauseOf es k' = none :=
        clauseOf_eq_none h fun slot hslot => hks slot hslot k' List.mem_cons_self
      rw [clauseOf_cons_of_ne hkey hne, hnone, Option.map_none]
      exact ih (List.mem_of_ne_of_mem hne hk)
        fun slot hslot k hk => hks slot hslot k (List.mem_cons_of_mem _ hk)

/-! ## Reading entries -/

/-- All entries have values that their keys may have. -/
def Accepted (xs : List Placed) : Prop :=
  ∀ x ∈ xs, x.role.Accepts x.entry.value

/-- No steps are written inline. -/
def AllBlocks (xs : List Placed) : Prop :=
  ∀ x ∈ xs, x.IsBlock

theorem accepted_cons :
    Accepted (placedEntries d context (e :: es)) ↔
      Accepted (placedEntries d context [e]) ∧ Accepted (placedEntries d context es) := by
  rw [placedEntries_cons]
  exact List.forall_mem_append

theorem allBlocks_cons :
    AllBlocks (placedEntries d context (e :: es)) ↔
      AllBlocks (placedEntries d context [e]) ∧ AllBlocks (placedEntries d context es) := by
  rw [placedEntries_cons]
  exact List.forall_mem_append

/-- From the tokens of one entry a form derives exactly what the entry means. -/
structure ReadsEntry (d : Nat) (context : Context) (F : Form α) (Means : Entry Node → α → Prop) :
    Prop where
  isBlock : F.IsBlock d
  derives_iff : ∀ e a,
    Accepted (placedEntries d context [e]) ∧ F.Derives (flat d context [e]) a ↔
      AllBlocks (placedEntries d context [e]) ∧ Means e a

theorem derives_many_flat_nil {F : Form α} (hF : F.IsBlock d) {as : List α} :
    F.many.Derives (flat d context []) as ↔ as = [] := by
  cases as with
  | nil => simp [flat, placedEntries]
  | cons a as =>
    refine ⟨fun h => ?_, fun h => absurd h (List.cons_ne_nil a as)⟩
    obtain ⟨u, v, h, ha, -⟩ := Form.derives_many_cons.1 h
    obtain ⟨e, es, h, -⟩ := hF.cut (v := []) ha (by simp)
      (h.trans (by simp [(List.append_eq_nil_iff.1 h.symm).2]))
    cases h

theorem derives_many_flat_cons {F : Form α} (hF : F.IsBlock d) {as : List α} :
    F.many.Derives (flat d context (e :: es)) as ↔
      ∃ a as', as = a :: as' ∧ F.Derives (flat d context [e]) a ∧
        F.many.Derives (flat d context es) as' := by
  cases as with
  | nil =>
    rw [Form.derives_many_nil, flat_cons, flat_singleton]
    exact ⟨nofun, fun ⟨_, _, h, _⟩ => nomatch h⟩
  | cons a as =>
    rw [Form.derives_many_cons]
    constructor
    · intro h
      obtain ⟨u, v, h, ha, has⟩ := h
      obtain ⟨e', es', he, rfl, rfl⟩ := hF.cut ha (Form.IsFlush.many hF v as has) h
      cases he
      exact ⟨a, as, rfl, ha, has⟩
    · intro h
      obtain ⟨a', as', h, ha, has⟩ := h
      cases h
      exact ⟨_, _, flat_cons, ha, has⟩

/-- What is read of one entry is read of each entry of a mapping. -/
theorem ReadsEntry.many {F : Form α} {Fits : Entry Node → Prop} {of : Entry Node → α}
    (hF : ReadsEntry d context F fun e a => Fits e ∧ a = of e) (es : List (Entry Node))
    (as : List α) :
    Accepted (placedEntries d context es) ∧ F.many.Derives (flat d context es) as ↔
      AllBlocks (placedEntries d context es) ∧ (∀ e ∈ es, Fits e) ∧ as = es.map of := by
  induction es generalizing as with
  | nil => simp [derives_many_flat_nil hF.isBlock, Accepted, AllBlocks, placedEntries]
  | cons e es ih =>
    rw [accepted_cons, allBlocks_cons, derives_many_flat_cons hF.isBlock, List.forall_mem_cons]
    constructor
    · intro h
      obtain ⟨⟨he, hes⟩, a, as, rfl, ha, has⟩ := h
      obtain ⟨hblock, hfits, rfl⟩ := (hF.derives_iff e a).1 ⟨he, ha⟩
      obtain ⟨hblocks, hall, rfl⟩ := (ih as).1 ⟨hes, has⟩
      exact ⟨⟨hblock, hblocks⟩, ⟨hfits, hall⟩, rfl⟩
    · intro h
      obtain ⟨⟨hblock, hblocks⟩, ⟨hfits, hall⟩, rfl⟩ := h
      obtain ⟨he, ha⟩ := (hF.derives_iff e _).2 ⟨hblock, hfits, rfl⟩
      obtain ⟨hes, has⟩ := (ih _).2 ⟨hblocks, hall, rfl⟩
      exact ⟨⟨he, hes⟩, _, _, rfl, ha, has⟩

/-! ## Reading sections -/

/-- From the tokens of some entries a form derives exactly what they say, if they are a section.
What they say depends only on the entries of the keywords that its slots name. -/
structure ReadsSection (d : Nat) (G : Form β) (slots : List Slot) (IsStep : Node → Prop)
    (say : (Keyword → Option (Entry Node)) → β) : Prop where
  isFlush : G.IsFlush d
  congr : ∀ f g, (∀ slot ∈ slots, ∀ k ∈ slot.keywords, f k = g k) → say f = say g
  derives_iff : ∀ es b,
    Accepted (placedEntries d .body es) ∧ G.Derives (flat d .body es) b ↔
      AllBlocks (placedEntries d .body es) ∧ IsSection slots IsStep es ∧ b = say (clauseOf es)

/-- What a clause means: it is the entry of one of some keywords and holds what it must. -/
def IsClause (IsStep : Node → Prop) (ks : List Keyword) (of : Keyword → Entry Node → α)
    (e : Entry Node) (a : α) : Prop :=
  ∃ k ∈ ks, e.key = k.text ∧ Holds IsStep k e.value ∧ a = of k e

theorem ReadsSection.of_same {G G' : Form β} {say : (Keyword → Option (Entry Node)) → β}
    (h : G.Same G') (hG : ReadsSection d G' slots IsStep say) :
    ReadsSection d G slots IsStep say where
  isFlush := h.isFlush hG.isFlush
  congr := hG.congr
  derives_iff es b := by
    rw [h]
    exact hG.derives_iff es b

theorem ReadsSection.pure (b : β) :
    ReadsSection d (Pure.pure b : Form β) [] IsStep fun _ => b where
  isFlush := .pure b
  congr _ _ _ := rfl
  derives_iff es b' := by
    rw [Form.derives_pure, isSection_nil]
    cases es with
    | nil => simp [flat, placedEntries, Accepted, AllBlocks, eq_comm]
    | cons e es =>
      rw [flat_cons, flat_singleton]
      exact ⟨fun h => (nomatch h.2.1), fun h => (nomatch h.2.1)⟩

variable {F : Form α} {G : α → Form β} {say : α → (Keyword → Option (Entry Node)) → β}

/-- A clause in front of a section, read together. -/
theorem ReadsEntry.take_iff (hF : ReadsEntry d .body F (IsClause IsStep ks of))
    (hG : ∀ a, ReadsSection d (G a) slots IsStep (say a))
    (hks : ∀ slot ∈ slots, ∀ k ∈ ks, k ∉ slot.keywords) {b : β} :
    Accepted (placedEntries d .body (e :: es)) ∧
        (∃ a, F.Derives (flat d .body [e]) a ∧ (G a).Derives (flat d .body es) b) ↔
      AllBlocks (placedEntries d .body (e :: es)) ∧
        (∃ k ∈ ks, e.key = k.text ∧ Holds IsStep k e.value) ∧ IsSection slots IsStep es ∧
          ∃ a, among ks of (clauseOf (e :: es)) = some a ∧ b = say a (clauseOf (e :: es)) := by
  -- The entry of the clause in front is none that the section behind it asks for.
  have hcongr : ∀ k ∈ ks, e.key = k.text → ∀ a,
      say a (clauseOf (e :: es)) = say a (clauseOf es) := by
    intro k hk hkey a
    refine (hG a).congr _ _ fun slot hslot k' hk' => clauseOf_cons_of_ne hkey ?_
    intro h
    subst h
    exact hks slot hslot k hk hk'
  rw [accepted_cons, allBlocks_cons]
  constructor
  · intro h
    obtain ⟨⟨he, hes⟩, a, ha, hb⟩ := h
    obtain ⟨hblock, k, hk, hkey, hvalue, rfl⟩ := (hF.derives_iff e a).1 ⟨he, ha⟩
    obtain ⟨hblocks, hsection, rfl⟩ := ((hG _).derives_iff es b).1 ⟨hes, hb⟩
    exact ⟨⟨hblock, hblocks⟩, ⟨k, hk, hkey, hvalue⟩, hsection, of k e,
      among_cons hk hkey hsection.1 hks, (hcongr k hk hkey _).symm⟩
  · intro h
    obtain ⟨⟨hblock, hblocks⟩, ⟨k, hk, hkey, hvalue⟩, hsection, a, ha, rfl⟩ := h
    rw [among_cons hk hkey hsection.1 hks] at ha
    cases ha
    obtain ⟨he, ha⟩ := (hF.derives_iff e (of k e)).2 ⟨hblock, k, hk, hkey, hvalue, rfl⟩
    obtain ⟨hes, hb⟩ := ((hG _).derives_iff es _).2
      ⟨hblocks, hsection, hcongr k hk hkey (of k e)⟩
    exact ⟨⟨he, hes⟩, _, ha, hb⟩

theorem among_congr {f g : Keyword → Option (Entry Node)} (h : ∀ k ∈ ks, f k = g k) :
    among ks of f = among ks of g := by
  induction ks with
  | nil => rfl
  | cons k ks ih =>
    have htail : among ks of f = among ks of g := ih fun k hk => h k (List.mem_cons_of_mem _ hk)
    rw [among] at htail
    rw [among, among, List.findSome?_cons, List.findSome?_cons, h k List.mem_cons_self, htail]
    rfl

/-- A clause that may be missing adds a slot that may be left out. -/
theorem ReadsSection.optional (hF : ReadsEntry d .body F (IsClause IsStep ks of))
    {G : Option α → Form β} {say : Option α → (Keyword → Option (Entry Node)) → β}
    (hG : ∀ a, ReadsSection d (G a) slots IsStep (say a))
    (hks : ∀ slot ∈ slots, ∀ k ∈ ks, k ∉ slot.keywords) :
    ReadsSection d (F.opt >>= G) (⟨ks, true⟩ :: slots) IsStep
      fun clause => say (among ks of clause) clause where
  isFlush := .opt_bind hF.isBlock fun a => (hG a).isFlush
  congr f g h := by
    rw [among_congr (h _ List.mem_cons_self)]
    exact (hG _).congr f g fun slot hslot => h slot (List.mem_cons_of_mem _ hslot)
  derives_iff es b := by
    rw [Form.derives_opt_bind_iff, isSection_cons,
      hF.isBlock.derives_bind_flat fun a => (hG (some a)).isFlush]
    constructor
    · intro h
      obtain ⟨hacc, hb | ⟨e, es, rfl, hb⟩⟩ := h
      -- The clause is missing, and so is its entry, or its entry comes first.
      · obtain ⟨hblocks, hsection, rfl⟩ := ((hG none).derives_iff es b).1 ⟨hacc, hb⟩
        exact ⟨hblocks, .inl ⟨rfl, hsection⟩, by rw [among_eq_none hsection.1 hks]⟩
      · obtain ⟨hblocks, hclause, hsection, a, ha, rfl⟩ :=
          (hF.take_iff (fun a => hG (some a)) hks).1 ⟨hacc, hb⟩
        exact ⟨hblocks, .inr ⟨e, es, rfl, hclause, hsection⟩, by rw [ha]⟩
    · intro h
      obtain ⟨hblocks, ⟨-, hsection⟩ | ⟨e, es, rfl, hclause, hsection⟩, rfl⟩ := h
      · rw [among_eq_none hsection.1 hks]
        obtain ⟨hacc, hb⟩ := ((hG none).derives_iff es _).2 ⟨hblocks, hsection, rfl⟩
        exact ⟨hacc, .inl hb⟩
      · obtain ⟨k, hk, hkey, hvalue⟩ := hclause
        have ha : among ks of (clauseOf (e :: es)) = some (of k e) :=
          among_cons hk hkey hsection.1 hks
        obtain ⟨hacc, hb⟩ := (hF.take_iff (fun a => hG (some a)) hks).2
          ⟨hblocks, ⟨k, hk, hkey, hvalue⟩, hsection, _, ha, rfl⟩
        rw [ha]
        exact ⟨hacc, .inr ⟨e, es, rfl, hb⟩⟩

/-- A clause that must be there adds a slot that must not be left out. -/
theorem ReadsSection.required (hF : ReadsEntry d .body F (IsClause IsStep ks of))
    (hG : ∀ a, ReadsSection d (G a) slots IsStep (say a))
    (hks : ∀ slot ∈ slots, ∀ k ∈ ks, k ∉ slot.keywords) (a₀ : α) :
    ReadsSection d (F >>= G) (⟨ks, false⟩ :: slots) IsStep
      fun clause => say ((among ks of clause).getD a₀) clause where
  isFlush := hF.isBlock.isFlush_bind
  congr f g h := by
    rw [among_congr (h _ List.mem_cons_self)]
    exact (hG _).congr f g fun slot hslot => h slot (List.mem_cons_of_mem _ hslot)
  derives_iff es b := by
    rw [isSection_cons, hF.isBlock.derives_bind_flat fun a => (hG a).isFlush]
    constructor
    · intro h
      obtain ⟨hacc, e, es, rfl, hb⟩ := h
      obtain ⟨hblocks, hclause, hsection, a, ha, rfl⟩ := (hF.take_iff hG hks).1 ⟨hacc, hb⟩
      exact ⟨hblocks, .inr ⟨e, es, rfl, hclause, hsection⟩, by rw [ha, Option.getD_some]⟩
    · intro h
      obtain ⟨hblocks, ⟨h, -⟩ | ⟨e, es, rfl, hclause, hsection⟩, rfl⟩ := h
      · cases h
      · obtain ⟨k, hk, hkey, hvalue⟩ := hclause
        have ha : among ks of (clauseOf (e :: es)) = some (of k e) :=
          among_cons hk hkey hsection.1 hks
        obtain ⟨hacc, hb⟩ := (hF.take_iff hG hks).2
          ⟨hblocks, ⟨k, hk, hkey, hvalue⟩, hsection, _, ha, rfl⟩
        rw [ha, Option.getD_some]
        exact ⟨hacc, e, es, rfl, hb⟩

theorem ReadsSection.of_say_eq {G : Form β} {say say' : (Keyword → Option (Entry Node)) → β}
    (hG : ReadsSection d G slots IsStep say) (h : ∀ clause, say clause = say' clause) :
    ReadsSection d G slots IsStep say' := by
  obtain rfl : say = say' := funext h
  exact hG

section

variable {of : Entry Node → α} {G : Option α → Form β}
  {say : Option α → (Keyword → Option (Entry Node)) → β}

theorem among_singleton (clause : Keyword → Option (Entry Node)) :
    among [k] (fun _ => of) clause = (clause k).map of := by
  rw [among, List.findSome?_cons, List.findSome?_nil]
  cases clause k <;> rfl

/-- A clause of one keyword that may be missing. -/
theorem ReadsSection.opt (hF : ReadsEntry d .body F (IsClause IsStep [k] fun _ => of))
    (hG : ∀ a, ReadsSection d (G a) slots IsStep (say a))
    (hk : ∀ slot ∈ slots, k ∉ slot.keywords) :
    ReadsSection d (F.opt >>= G) (Slot.opt k :: slots) IsStep
      fun clause => say ((clause k).map of) clause := by
  refine .of_say_eq (.optional hF hG fun slot hslot k' hk' => ?_) fun clause => ?_
  · obtain rfl := List.mem_singleton.1 hk'
    exact hk slot hslot
  · rw [among_singleton]

/-- A clause of one keyword that counts as missing if it is empty. -/
theorem ReadsSection.optUnless {isEmpty : α → Bool}
    (hF : ReadsEntry d .body F (IsClause IsStep [k] fun _ => of))
    (hG : ∀ a, ReadsSection d (G a) slots IsStep (say a))
    (hk : ∀ slot ∈ slots, k ∉ slot.keywords) :
    ReadsSection d (F.optUnless isEmpty >>= G) (Slot.opt k :: slots) IsStep
      fun clause => say (((clause k).map of).filter (!isEmpty ·)) clause :=
  .of_same Form.same_optUnless_bind (.opt hF (fun _ => hG _) hk)

/-- A clause of one keyword that must be there. -/
theorem ReadsSection.req (hF : ReadsEntry d .body F (IsClause IsStep [k] fun _ => of))
    {G : α → Form β} {say : α → (Keyword → Option (Entry Node)) → β}
    (hG : ∀ a, ReadsSection d (G a) slots IsStep (say a))
    (hk : ∀ slot ∈ slots, k ∉ slot.keywords) (a₀ : α) :
    ReadsSection d (F >>= G) (Slot.req k :: slots) IsStep
      fun clause => say (((clause k).map of).getD a₀) clause := by
  refine .of_say_eq (.required hF hG (fun slot hslot k' hk' => ?_) a₀) fun clause => ?_
  · obtain rfl := List.mem_singleton.1 hk'
    exact hk slot hslot
  · rw [among_singleton]

end

end TestScript.Script
