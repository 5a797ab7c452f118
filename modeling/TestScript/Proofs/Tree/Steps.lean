import TestScript.Proofs.Tree.Clauses

/-!
# Steps

A step is an entry with a section below it, and a section of steps is an entry with steps below
it. Steps with hooks and steps without differ only in the slots for hooks (`ReadsHooks`).
-/

namespace TestScript.Script

open Document (Node Entry)
open Form Layout

variable {α β σ η : Type} {d : Nat} {context context' : Context} {e : Entry Node} {k : Keyword}
  {slots : List Slot} {IsStep : Node → Prop}

/-! ## Entries that open a level -/

/-- A level of its own is a mapping, or nothing, that is not written inline. -/
theorem isLevel_iff {value : Node} :
    IsLevel value ↔
      (∀ entries p, value = .mapping entries p true → entries = []) ∧ IsMapping value := by
  cases value with
  | mapping entries p flow =>
    constructor
    · intro h
      refine ⟨fun entries' p' h' => ?_, trivial⟩
      cases h'
      exact h rfl
    · intro h hflow
      subst hflow
      exact h.1 entries p rfl
  | null p => exact ⟨fun _ => ⟨nofun, trivial⟩, fun _ => trivial⟩
  | list | scalar => exact ⟨fun h => h.elim, fun h => h.2.elim⟩

theorem placedBelow_of_isMapping {role : Role} {level : Nat} {value : Node}
    (h : role.opens = some context) (hvalue : IsMapping value) :
    placedBelow level role value = placedEntries level context value.entries := by
  cases value with
  | mapping entries p flow => exact placedBelow_mapping_of_opens h
  | null p => simp [placedBelow, Node.entries, placedEntries]
  | list | scalar => exact hvalue.elim

theorem ownTokens_of_isMapping {role : Role} {level : Nat} {value : Node}
    (h : role.opens = some context) (hvalue : IsMapping value) :
    ownTokens role level value = [] := by
  cases value with
  | mapping entries p flow => exact ownTokens_mapping_of_opens h
  | null p => simp [ownTokens, isBlob_of_opens h, textTokens, texts]
  | list | scalar => exact hvalue.elim

/-- What is said of the entries of a level can be said of the entry that opens it. -/
theorem derives_inner_iff {F : Form β} {b : β} {Q : Prop}
    (hopens : (Role.of e.key d context).opens = some context')
    (hrole : Role.of e.key d context = .step ∨
      ∃ k, Role.of e.key d context = .keyword k ∧ k.shape = .steps)
    (h : Accepted (placedEntries (d + 1) context' e.value.entries) ∧
        F.Derives (flat (d + 1) context' e.value.entries) b ↔
      AllBlocks (placedEntries (d + 1) context' e.value.entries) ∧ Q) :
    Accepted (placedEntries d context [e]) ∧ F.Derives (inner d context e) b ↔
      AllBlocks (placedEntries d context [e]) ∧ IsMapping e.value ∧ Q := by
  have haccepts : (Role.of e.key d context).Accepts e.value ↔ IsLevel e.value := by
    rcases hrole with hstep | ⟨k, hk, hshape⟩
    · rw [hstep]
      exact Iff.rfl
    · rw [hk]
      simp only [Role.Accepts, hshape]
  have hblock : Placed.IsBlock ⟨d, context, e⟩ ↔
      ∀ entries p, e.value = .mapping entries p true → entries = [] :=
    ⟨fun h => h hrole, fun h _ => h⟩
  -- The key accepts a mapping that is not written inline; what stands in it is up to `h`.
  rw [accepted_singleton, allBlocks_singleton, haccepts, hblock, isLevel_iff]
  have hbelow : IsMapping e.value →
      placedBelow (d + 1) (Role.of e.key d context) e.value =
        placedEntries (d + 1) context' e.value.entries := placedBelow_of_isMapping hopens
  have hinner : IsMapping e.value →
      inner d context e = flat (d + 1) context' e.value.entries := by
    intro hvalue
    rw [inner, ownTokens_of_isMapping hopens hvalue, hbelow hvalue]
    rfl
  constructor
  · intro hread
    obtain ⟨⟨⟨hinline, hvalue⟩, hacc⟩, hb⟩ := hread
    rw [hbelow hvalue] at hacc ⊢
    rw [hinner hvalue] at hb
    obtain ⟨hblocks, hq⟩ := h.1 ⟨hacc, hb⟩
    exact ⟨⟨hinline, hblocks⟩, hvalue, hq⟩
  · intro hread
    obtain ⟨⟨hinline, hblocks⟩, hvalue, hq⟩ := hread
    rw [hbelow hvalue] at hblocks ⊢
    obtain ⟨hacc, hb⟩ := h.2 ⟨hblocks, hq⟩
    rw [hinner hvalue]
    exact ⟨⟨⟨hinline, hvalue⟩, hacc⟩, hb⟩

/-! ## Sections of steps -/

theorem reads_hooks {step : Nat → Form σ} {of : Entry Node → σ} (hd : d ∈ k.depths)
    (hk : k.shape = .steps) (hwithin : (step (d + 1)).Within (under d))
    (hholds : ∀ value, Holds IsStep k value ↔
      IsMapping value ∧ ∀ e ∈ value.entries, IsStep e.value)
    (hstep : ReadsEntry (d + 1) .steps (step (d + 1)) fun e a => IsStep e.value ∧ a = of e) :
    ReadsEntry d .body (hooks step k d) (IsClause IsStep [k] fun _ => hooksOf of) := by
  refine .of_content hd (fun p => hwithin.many.bind fun _ => .pure _) fun e a hrole => ?_
  have hopens : (Role.of e.key d .body).opens = some .steps := by
    rw [hrole, Role.opens, if_pos hk]
  rw [hholds, and_assoc]
  apply derives_inner_iff hopens (.inr ⟨k, hrole, hk⟩)
  rw [derives_map]
  constructor
  · intro h
    obtain ⟨hacc, as, has, rfl⟩ := h
    obtain ⟨hblocks, hall, rfl⟩ := (hstep.many _ _).1 ⟨hacc, has⟩
    exact ⟨hblocks, hall, rfl⟩
  · intro h
    obtain ⟨hblocks, hall, rfl⟩ := h
    obtain ⟨hacc, has⟩ := (hstep.many _ _).2 ⟨hblocks, hall, rfl⟩
    exact ⟨hacc, _, has, rfl⟩

/-! ## Steps -/

/-- At a level where no key is a keyword each key names a step. -/
theorem role_of_step (hd : ∀ k : Keyword, d ∉ k.depths) (key : String) :
    Role.of key d .steps = .step := by
  have hnone : Keyword.classify? key d = none := by
    rw [Option.eq_none_iff_forall_not_mem]
    intro k hk
    exact hd k (Keyword.classify?_eq_some_iff.1 hk).2
  unfold Role.of
  rw [hnone]

theorem derives_step_flat {C : String × Position → Form α} (hd : ∀ k : Keyword, d ∉ k.depths)
    {a : α} :
    (identifier d >>= C).Derives (flat d .steps [e]) a ↔
      (C (e.key, e.position)).Derives (inner d .steps e) a := by
  have hkind : (Placed.keyToken ⟨d, .steps, e⟩).kind = .identifier e.key := by
    show (Role.of e.key d .steps).tokenKind e.key = _
    rw [role_of_step hd]
    rfl
  rw [flat_singleton, derives_bind]
  constructor
  · intro h
    obtain ⟨u, v, ⟨key, p⟩, h, hname, ha⟩ := h
    obtain ⟨t, rfl, ht, -, hp⟩ := derives_token.1 hname
    obtain ⟨rfl, rfl⟩ := List.cons.inj h
    cases hkind.symm.trans ht
    cases hp
    exact ha
  · intro h
    exact ⟨[_], _, (e.key, e.position), rfl, derives_token.2 ⟨_, rfl, hkind, rfl, rfl⟩, h⟩

/-- A step reads its entry if its clauses read the section below. -/
theorem ReadsEntry.of_section {C : String × Position → Form α}
    {say : String × Position → (Keyword → Option (Entry Node)) → α}
    (hd : ∀ k : Keyword, d ∉ k.depths) (hblock : (identifier d >>= C).IsBlock d)
    (h : ∀ x, ReadsSection (d + 1) (C x) slots IsStep (say x)) :
    ReadsEntry d .steps (identifier d >>= C) fun e a =>
      (IsMapping e.value ∧ IsSection slots IsStep e.value.entries) ∧
        a = say (e.key, e.position) (clauseOf e.value.entries) where
  isBlock := hblock
  derives_iff e a := by
    have hopens : (Role.of e.key d .steps).opens = some .body := by
      rw [role_of_step hd]
      rfl
    rw [derives_step_flat hd, and_assoc]
    exact derives_inner_iff hopens (.inl (role_of_step hd e.key)) ((h _).derives_iff _ _)

/-- A form reads the hooks in front of a section: they add slots to it. -/
structure ReadsHooks (d : Nat) (H : Form η) (hookSlots : List Slot) (IsStep : Node → Prop)
    (of : (Keyword → Option (Entry Node)) → η) : Prop where
  bind : ∀ {β : Type} {G : η → Form β} {slots : List Slot}
    {say : η → (Keyword → Option (Entry Node)) → β},
    (∀ a, ReadsSection d (G a) slots IsStep (say a)) →
      (∀ slot ∈ slots, .before ∉ slot.keywords ∧ .after ∉ slot.keywords) →
        ReadsSection d (H >>= G) (hookSlots ++ slots) IsStep fun clause => say (of clause) clause

theorem readsHooks_none : ReadsHooks d (pure ()) [] IsStep fun _ => () where
  bind hG _ := .of_same same_pure_bind (hG ())

theorem reads_step {H : Nat → Form η} {hookSlots : List Slot}
    {of : (Keyword → Option (Entry Node)) → η} (hd : ∀ k : Keyword, d ∉ k.depths)
    (hd' : ∀ k ∈ clauseKeywords, d + 1 ∈ k.depths) (hwithin : (H (d + 1)).Within (under d))
    (hslots : hookSlots = [] ∨ hookSlots = Slot.hooks)
    (hH : ReadsHooks (d + 1) (H (d + 1)) hookSlots IsStep of) :
    ReadsEntry d .steps (step H d) fun e a =>
      (IsMapping e.value ∧ IsSection (Slot.step hookSlots) IsStep e.value.entries) ∧
        a = stepWith of (e.key, e.position) (clauseOf e.value.entries) := by
  have hblock : (step H d).IsBlock d :=
    (headed_step contents_subset_under (keywordsAt_subset_under (Nat.lt_succ_self d))
      hwithin).isBlock fun _ => not_isUnder_of_mem_identifiersAt
  have hparams : ∀ k ∈ [Keyword.input, .output], ReadsEntry (d + 1) .body (params k (d + 1))
      (IsClause IsStep [k] fun _ e => [paramOf e]) := by
    intro k hk
    rcases List.mem_cons.1 hk with rfl | hk
    · exact reads_params rfl (hd' _ (by decide)) fun _ => Iff.rfl
    · obtain rfl := List.mem_singleton.1 hk
      exact reads_params rfl (hd' _ (by decide)) fun _ => Iff.rfl
  -- The clauses are read one behind the other, each in front of the slots of those behind it.
  refine ReadsEntry.of_section hd hblock fun x => .of_say_eq
    (.opt (reads_skipEnv (hd' _ (by decide))) (fun _ =>
      .opt (reads_skip (hd' _ (by decide))) (fun _ =>
      .optUnless (reads_markers (hd' _ (by decide))) (fun _ =>
      .opt (reads_flaky (hd' _ (by decide))) (fun _ =>
      .optional (reads_parameterize (hd' _ (by decide))) (fun _ => hH.bind (fun _ =>
      .opt (reads_use (hd' _ (by decide))) (fun _ =>
      .opt (hparams .input (by decide)) (fun _ =>
      .opt (hparams .output (by decide)) (fun _ => .pure _) ?_) ?_) ?_) ?_) ?_) ?_) ?_) ?_) ?_)
    fun clause => ?say
  case say =>
    rw [among_repeatMode]
    rfl
  all_goals rcases hslots with rfl | rfl <;> decide

theorem readsHooks_own {d : Nat} (hd : d ∈ Keyword.before.depths)
    (hwithin : (hookStep (d + 1)).Within (under d))
    (hstep : ReadsEntry (d + 1) .steps (hookStep (d + 1))
      fun e a => IsHookStep e.value ∧ a = hookStepOf e) :
    ReadsHooks d (ownHooks d) Slot.hooks IsHookStep ownHooksOf := by
  have hbefore : ReadsEntry d .body (hooks hookStep .before d)
      (IsClause IsHookStep [.before] fun _ => hooksOf hookStepOf) :=
    reads_hooks hd rfl hwithin (fun _ => Iff.rfl) hstep
  have hafter : ReadsEntry d .body (hooks hookStep .after d)
      (IsClause IsHookStep [.after] fun _ => hooksOf hookStepOf) :=
    reads_hooks hd rfl hwithin (fun _ => Iff.rfl) hstep
  refine ⟨fun {β G slots say} hG hslots => ?_⟩
  have hsame : (ownHooks d >>= G).Same
      ((hooks hookStep .before d).optUnless (·.steps.isEmpty) >>= fun before =>
        (hooks hookStep .after d).optUnless (·.steps.isEmpty) >>= fun after =>
          G ⟨before, after⟩) :=
    same_bind_assoc.trans (Same.bind (.refl _) fun _ =>
      same_bind_assoc.trans (Same.bind (.refl _) fun _ => same_pure_bind))
  refine .of_same hsame (.of_say_eq (.optUnless hbefore (fun before => .optUnless hafter
    (fun after => hG ⟨before, after⟩) ?_) ?_) fun clause => ?say)
  case say => rfl
  · exact fun slot hslot => (hslots slot hslot).2
  · intro slot hslot
    rcases List.mem_cons.1 hslot with rfl | hslot
    · decide
    · exact (hslots slot hslot).1

end TestScript.Script
