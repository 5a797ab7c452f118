import TestScript.Proofs.Tree.Steps

/-!
# Reading a document directly

A document is flattened into tokens, which are then read as a script. That gives a script exactly
if the document is laid out like one and has the keys and values of one, and then it is the script
that the tree says (`read_eq_ok_iff_isScript`).
-/

namespace TestScript.Script

open Document (Node Entry)
open Form Layout

/-! ## The steps of a script -/

theorem reads_hookStep :
    ReadsEntry 3 .steps (hookStep 3) fun e a => IsHookStep e.value ∧ a = hookStepOf e := by
  have hd : ∀ k : Keyword, 3 ∉ k.depths := by
    intro k
    cases k <;> decide
  have hd' : ∀ k ∈ clauseKeywords, 3 + 1 ∈ k.depths := by decide
  exact @reads_step Unit 3 (fun _ => False) (fun _ => pure ()) [] (fun _ => ()) hd hd'
    (.pure ()) (.inl rfl) readsHooks_none

theorem within_hookStep : (hookStep 3).Within (under 2) :=
  within_step contents_subset_under (identifiersAt_subset_under (by decide))
    (keywordsAt_subset_under (by decide)) (.pure ())

theorem reads_mainStep :
    ReadsEntry 1 .steps (mainStep 1) fun e a => IsMainStep e.value ∧ a = mainStepOf e := by
  have hd : ∀ k : Keyword, 1 ∉ k.depths := by
    intro k
    cases k <;> decide
  have hd' : ∀ k ∈ clauseKeywords, 1 + 1 ∈ k.depths := by decide
  have hwithin : (ownHooks 2).Within (under 1) :=
    within_ownHooks contents_subset_under (identifiersAt_subset_under (by decide))
      (keywordsAt_subset_under (by decide)) (keywordsAt_subset_under (by decide))
  exact @reads_step OwnHooks 1 IsHookStep ownHooks Slot.hooks ownHooksOf hd hd' hwithin (.inr rfl)
    (readsHooks_own (by decide) within_hookStep reads_hookStep)

theorem within_mainStep : (mainStep 1).Within (under 0) :=
  within_step contents_subset_under (identifiersAt_subset_under (by decide))
    (keywordsAt_subset_under (by decide))
    (within_ownHooks contents_subset_under (identifiersAt_subset_under (by decide))
      (keywordsAt_subset_under (by decide)) (keywordsAt_subset_under (by decide)))

/-! ## The clauses of a script -/

/-- The issue, with the place of its keyword. -/
def issueClause : Form (Position × String × Position) := do
  let position ← keyword .issue 0
  let issue ← Form.value
  return (position, issue)

/-- The main steps; there is at least one. -/
def stepsClause : Form (List MainStep) := do
  let _ ← keyword .steps 0
  let first ← mainStep 1
  let others ← (mainStep 1).many
  return first :: others

theorem reads_issueClause :
    ReadsEntry 0 .body issueClause (IsClause IsMainStep [.issue] fun _ e =>
      (e.position, textOf e.value, e.value.position)) :=
  .of_flat_map (fun p (x : String × Position) => (p, x))
    (fun value => (textOf value, value.position)) (by decide) (by decide)
    (within_value contents_subset_under) fun _ _ => derives_value_iff

theorem derives_many_ne_nil {α : Type} {F : Form α} {w : List Token} {as : List α} :
    (F >>= fun first => F.many >>= fun others => pure (first :: others)).Derives w as ↔
      F.many.Derives w as ∧ as ≠ [] := by
  rw [derives_bind]
  cases as with
  | nil =>
    refine ⟨fun h => ?_, fun h => absurd rfl h.2⟩
    obtain ⟨u, v, a, -, -, h⟩ := h
    obtain ⟨as, -, h⟩ := derives_map.1 h
    cases h
  | cons a as =>
    rw [derives_many_cons, and_iff_left (List.cons_ne_nil a as)]
    constructor
    · intro h
      obtain ⟨u, v, a', rfl, ha, h⟩ := h
      obtain ⟨as', has, h⟩ := derives_map.1 h
      cases h
      exact ⟨u, v, rfl, ha, has⟩
    · intro h
      obtain ⟨u, v, rfl, ha, has⟩ := h
      exact ⟨u, v, a, rfl, ha, derives_map.2 ⟨as, has, rfl⟩⟩

theorem reads_stepsClause :
    ReadsEntry 0 .body stepsClause (IsClause IsMainStep [.steps] fun _ e =>
      e.value.entries.map mainStepOf) := by
  refine .of_content (by decide) (fun _ => within_mainStep.bind fun _ =>
    within_mainStep.many.bind fun _ => .pure _) fun e a hrole => ?_
  have hopens : (Role.of e.key 0 .body).opens = some .steps := by
    rw [hrole]
    rfl
  rw [Holds, and_assoc]
  apply derives_inner_iff hopens (.inr ⟨.steps, hrole, rfl⟩)
  rw [derives_many_ne_nil, ← and_assoc, reads_mainStep.many]
  constructor
  · intro h
    obtain ⟨⟨hblocks, hall, rfl⟩, hne⟩ := h
    exact ⟨hblocks, ⟨fun h => hne (by rw [h, List.map_nil]), hall⟩, rfl⟩
  · intro h
    obtain ⟨hblocks, ⟨hne, hall⟩, rfl⟩ := h
    exact ⟨⟨hblocks, hall, rfl⟩, fun h => hne (List.map_eq_nil_iff.1 h)⟩

/-! ## Scripts -/

theorem same_script :
    Form.script.Same (issueClause >>= fun issue =>
      (Form.markers 0).optUnless (·.names.isEmpty) >>= fun markers =>
      (hooks mainStep .before 0).optUnless (·.steps.isEmpty) >>= fun before =>
      (hooks mainStep .after 0).optUnless (·.steps.isEmpty) >>= fun after =>
      stepsClause >>= fun steps => pure {
        issue := ⟨issue.2.1, issue.2.2⟩, markers, before, after, steps, position := issue.1 }) := by
  refine .symm (same_bind_assoc.trans (.bind (.refl _) fun _ => same_bind_assoc.trans
    (.bind (.refl _) fun _ => same_pure_bind.trans ?_)))
  refine .bind (.refl _) fun _ => .bind (.refl _) fun _ => .bind (.refl _) fun _ => ?_
  exact same_bind_assoc.trans (.bind (.refl _) fun _ => same_bind_assoc.trans
    (.bind (.refl _) fun _ => same_bind_assoc.trans (.bind (.refl _) fun _ => same_pure_bind)))

theorem reads_script : ReadsSection 0 Form.script Slot.script IsMainStep scriptWith := by
  have hbefore : ReadsEntry 0 .body (hooks mainStep .before 0)
      (IsClause IsMainStep [.before] fun _ => hooksOf mainStepOf) :=
    reads_hooks (by decide) rfl within_mainStep (fun _ => Iff.rfl) reads_mainStep
  have hafter : ReadsEntry 0 .body (hooks mainStep .after 0)
      (IsClause IsMainStep [.after] fun _ => hooksOf mainStepOf) :=
    reads_hooks (by decide) rfl within_mainStep (fun _ => Iff.rfl) reads_mainStep
  refine .of_same same_script (.of_say_eq
    (.req reads_issueClause (fun _ =>
      .optUnless (reads_markers (by decide)) (fun _ =>
      .optUnless hbefore (fun _ =>
      .optUnless hafter (fun _ =>
      .req reads_stepsClause (fun _ => .pure _) ?_ []) ?_) ?_) ?_) ?_ ({}, "", {}))
    fun clause => ?say)
  case say =>
    cases hissue : clause .issue <;> simp [scriptWith, hissue, issueOf]
  all_goals decide

/-! ## Whole documents -/

theorem placed_eq {root : Node} (h : IsRoot root) :
    placed root = placedEntries 0 .body root.entries := by
  cases root with
  | mapping entries p flow => rfl
  | null p => simp [placed, placedBelow, Node.entries, placedEntries]
  | list | scalar => exact h.elim

theorem isRoot_and_ne_nil_iff {root : Node} :
    IsRoot root ∧ root.entries ≠ [] ↔
      ∃ entries p, root = .mapping entries p false ∧ entries ≠ [] := by
  cases root with
  | mapping entries p flow =>
    constructor
    · intro h
      obtain ⟨rfl, hne⟩ := h
      exact ⟨entries, p, rfl, hne⟩
    · intro h
      obtain ⟨entries', p', h, hne⟩ := h
      cases h
      exact ⟨rfl, hne⟩
  | null | list | scalar => simp [IsRoot, Node.entries]

/-- **The flat reading of a document agrees with its tree.** For any indent unit, the tokens of a
document are read as a script exactly if the document is laid out like one and is one; the script
is then the one that its tree says. -/
theorem read_eq_ok_iff_isScript (unit : Nat) (root : Node) (s : Script) :
    (∃ ts, tokensOf unit root = .ok ts ∧ ofTokens ts = .ok s) ↔
      IsLaidOut (max unit 1) root ∧ IsScript root ∧ s = scriptOf root := by
  have hread := reads_script.derives_iff root.entries s
  constructor
  · intro h
    obtain ⟨ts, hts, hs⟩ := h
    obtain ⟨hroot, hlaid, rfl⟩ := tokensOf_eq_ok_iff.1 hts
    rw [placed_eq hroot] at hlaid hs
    obtain ⟨hblocks, hsection, hsay⟩ := hread.1
      ⟨fun x hx => (hlaid x hx).accepts, ofTokens_eq_ok.1 hs⟩
    -- A script has an issue at least.
    have hne : root.entries ≠ [] := by
      intro h
      rw [h] at hsection
      cases hsection.1 with
      | leave hopt => cases hopt
    refine ⟨⟨isRoot_and_ne_nil_iff.1 ⟨hroot, hne⟩, ?_, ?_⟩, hsection, hsay⟩
    · rw [placed_eq hroot]
      exact fun x hx => (hlaid x hx).column_eq
    · rw [placed_eq hroot]
      exact hblocks
  · intro h
    obtain ⟨⟨hroot, hcolumn, hblocks⟩, hsection, hsay⟩ := h
    obtain ⟨hroot, -⟩ := isRoot_and_ne_nil_iff.2 hroot
    rw [placed_eq hroot] at hcolumn hblocks
    obtain ⟨hacc, hs⟩ := hread.2 ⟨hblocks, hsection, hsay⟩
    refine ⟨_, tokensOf_eq_ok_iff.2 ⟨hroot, ?_, rfl⟩, ofTokens_eq_ok.2 ?_⟩
    · rw [placed_eq hroot]
      exact fun x hx => ⟨hcolumn x hx, hacc x hx⟩
    · rw [placed_eq hroot]
      exact hs

/-- A hook of a step may be called `use`: at its level no key is a keyword. -/
example :
    let root : Node := .mapping
      [⟨"issue", ⟨0, 0⟩, .scalar "T-1" false ⟨0, 7⟩⟩,
        ⟨"steps", ⟨1, 0⟩, .mapping
          [⟨"login", ⟨2, 2⟩, .mapping
            [⟨"flaky", ⟨3, 4⟩, .scalar "+2" true ⟨3, 11⟩⟩,
              ⟨"before", ⟨4, 4⟩, .mapping [⟨"use", ⟨5, 6⟩, .null ⟨5, 10⟩⟩] ⟨5, 6⟩ false⟩]
            ⟨3, 4⟩ false⟩]
          ⟨2, 2⟩ false⟩]
      ⟨0, 0⟩ false
    (tokensOf 2 root).toOption.bind (fun ts => (ofTokens ts).toOption) = some (scriptOf root) := by
  rfl

end TestScript.Script
