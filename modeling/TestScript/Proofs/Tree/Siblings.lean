import Mathlib.Data.List.Nodup
import TestScript.Compile
import TestScript.Proofs.Document.Keys
import TestScript.Proofs.Tree.Agreement

/-!
# Siblings have different ids

The steps beside each other in a compiled script have different ids, so a step is found by its id
(`distinct_ids_of_compile`). Neither the tokens nor the grammar see to that. But each list of steps
comes from the entries of one mapping, and in a loaded document these have different keys.
-/

namespace TestScript

/-! ## All stages -/

theorem mapError_eq_ok_iff {ε ε' α : Type} {x : Except ε α} {f : ε → ε'} {a : α} :
    x.mapError f = .ok a ↔ x = .ok a := by
  cases x <;> simp [Except.mapError]

theorem compile_eq_ok_iff {unit : Nat} {text : String} {s : Script} :
    compile unit text = .ok s ↔ ∃ root ts, Document.load text = .ok root ∧
      Script.tokensOf unit root = .ok ts ∧ Script.ofTokens ts = .ok s := by
  simp only [compile, tokenize, Script.Layout.bind_eq_ok_iff, mapError_eq_ok_iff]
  constructor
  · intro h
    obtain ⟨ts, ⟨root, hroot, hts⟩, hs⟩ := h
    exact ⟨root, ts, hroot, hts, hs⟩
  · intro h
    obtain ⟨root, ts, hroot, hts, hs⟩ := h
    exact ⟨ts, ⟨root, hroot, hts⟩, hs⟩

theorem Document.Node.HasDistinctKeys.entries {n : Document.Node} (h : n.HasDistinctKeys) :
    (n.entries.map Document.Entry.key).Nodup ∧ ∀ e ∈ n.entries, e.value.HasDistinctKeys := by
  cases n with
  | mapping entries p flow => exact ⟨h.1, Document.entriesHaveDistinctKeys_iff.1 h.2⟩
  | list | scalar | null => simp [Node.entries]

namespace Script

open Document (Node Entry)

/-- A document whose tokens are a script is a script, and that one. -/
theorem isScript_and_eq_scriptOf {unit : Nat} {root : Node} {ts : List Token} {s : Script}
    (hts : tokensOf unit root = .ok ts) (hs : ofTokens ts = .ok s) :
    IsScript root ∧ s = scriptOf root := by
  obtain ⟨hroot, hlaid, rfl⟩ := tokensOf_eq_ok_iff.1 hts
  rw [placed_eq hroot] at hlaid hs
  exact ((reads_script.derives_iff root.entries s).1
    ⟨fun x hx => (hlaid x hx).accepts, ofTokens_eq_ok.1 hs⟩).2

/-! ## Steps and entries -/

/-- The entries below a keyword. -/
def entriesUnder (entries : List (Entry Node)) (k : Keyword) : List (Entry Node) :=
  ((clauseOf entries k).map fun e => e.value.entries).getD []

theorem stepsOf_hooksOf {σ : Type} (stepOf : Entry Node → σ) (entries : List (Entry Node))
    (k : Keyword) :
    Hooks.stepsOf (((clauseOf entries k).map (hooksOf stepOf)).filter (!·.steps.isEmpty)) =
      (entriesUnder entries k).map stepOf := by
  rw [entriesUnder]
  cases clauseOf entries k with
  | none => rfl
  | some e =>
    -- A section without steps is left out, which leaves no steps as well.
    cases hentries : e.value.entries <;> simp [Hooks.stepsOf, hooksOf, Option.filter, hentries]

theorem steps_scriptOf (root : Node) :
    (scriptOf root).steps = (entriesUnder root.entries .steps).map mainStepOf := by
  rw [scriptOf, scriptWith, entriesUnder]
  cases clauseOf root.entries .steps <;> rfl

/-- Below each keyword of a mapping the keys are distinct. -/
theorem distinct_entriesUnder {entries : List (Entry Node)}
    (h : ∀ e ∈ entries, e.value.HasDistinctKeys) (k : Keyword) :
    ((entriesUnder entries k).map Entry.key).Nodup ∧
      ∀ e ∈ entriesUnder entries k, e.value.HasDistinctKeys := by
  rw [entriesUnder]
  cases hclause : clauseOf entries k with
  | none => simp
  | some e => exact (h e (List.mem_of_find?_eq_some hclause)).entries

/-- The ids of the steps below a keyword are the keys of its entries. -/
theorem nodup_ids_map {η : Type} {stepOf : Entry Node → Step η} (hid : ∀ e, (stepOf e).id = e.key)
    {entries : List (Entry Node)} (h : (entries.map Entry.key).Nodup) :
    ((entries.map stepOf).map Step.id).Nodup := by
  have hkeys : (entries.map stepOf).map Step.id = entries.map Entry.key := by
    rw [List.map_map]
    exact List.map_congr_left fun e _ => hid e
  rwa [hkeys]

/-! ## Ids -/

/-- No step has a sibling with its id. -/
structure HasDistinctIds (s : Script) : Prop where
  before : ((Hooks.stepsOf s.before).map Step.id).Nodup
  steps : (s.steps.map Step.id).Nodup
  after : ((Hooks.stepsOf s.after).map Step.id).Nodup
  own_before : ∀ m ∈ Hooks.stepsOf s.before ++ s.steps ++ Hooks.stepsOf s.after,
    ((Hooks.stepsOf m.hooks.before).map Step.id).Nodup
  own_after : ∀ m ∈ Hooks.stepsOf s.before ++ s.steps ++ Hooks.stepsOf s.after,
    ((Hooks.stepsOf m.hooks.after).map Step.id).Nodup

/-- The hooks of a step have different ids if the keys of its entry are distinct. -/
theorem nodup_ids_ownHooks {e : Entry Node} (h : e.value.HasDistinctKeys) :
    ((Hooks.stepsOf (mainStepOf e).hooks.before).map Step.id).Nodup ∧
      ((Hooks.stepsOf (mainStepOf e).hooks.after).map Step.id).Nodup := by
  have hown : ∀ k, (((entriesUnder e.value.entries k).map hookStepOf).map Step.id).Nodup :=
    fun k => nodup_ids_map (fun _ => rfl) (distinct_entriesUnder h.entries.2 k).1
  have hbefore : Hooks.stepsOf (mainStepOf e).hooks.before = _ :=
    stepsOf_hooksOf hookStepOf e.value.entries .before
  have hafter : Hooks.stepsOf (mainStepOf e).hooks.after = _ :=
    stepsOf_hooksOf hookStepOf e.value.entries .after
  rw [hbefore, hafter]
  exact ⟨hown .before, hown .after⟩

/-- Distinct keys make distinct ids. -/
theorem hasDistinctIds_scriptOf {root : Node} (h : root.HasDistinctKeys) :
    (scriptOf root).HasDistinctIds := by
  have hunder := distinct_entriesUnder h.entries.2
  have hids : ∀ k, (((entriesUnder root.entries k).map mainStepOf).map Step.id).Nodup :=
    fun k => nodup_ids_map (fun _ => rfl) (hunder k).1
  have hbefore : Hooks.stepsOf (scriptOf root).before = _ :=
    stepsOf_hooksOf mainStepOf root.entries .before
  have hafter : Hooks.stepsOf (scriptOf root).after = _ :=
    stepsOf_hooksOf mainStepOf root.entries .after
  -- Each main step comes from an entry below one of three keywords.
  have hmain : ∀ m ∈ Hooks.stepsOf (scriptOf root).before ++ (scriptOf root).steps ++
      Hooks.stepsOf (scriptOf root).after,
      ((Hooks.stepsOf m.hooks.before).map Step.id).Nodup ∧
        ((Hooks.stepsOf m.hooks.after).map Step.id).Nodup := by
    have hown : ∀ k, ∀ m ∈ (entriesUnder root.entries k).map mainStepOf,
        ((Hooks.stepsOf m.hooks.before).map Step.id).Nodup ∧
          ((Hooks.stepsOf m.hooks.after).map Step.id).Nodup := by
      intro k m hm
      obtain ⟨e, he, rfl⟩ := List.mem_map.1 hm
      exact nodup_ids_ownHooks ((hunder k).2 e he)
    rw [hbefore, hafter, steps_scriptOf]
    exact List.forall_mem_append.2
      ⟨List.forall_mem_append.2 ⟨hown .before, hown .steps⟩, hown .after⟩
  refine ⟨?_, ?_, ?_, fun m hm => (hmain m hm).1, fun m hm => (hmain m hm).2⟩
  · rw [hbefore]
    exact hids .before
  · rw [steps_scriptOf]
    exact hids .steps
  · rw [hafter]
    exact hids .after

/-! ## Finding steps -/

/-- A step is found by its id if no other step in the list has that id. -/
theorem find?_id_eq_some {η : Type} {steps : List (Step η)} (h : (steps.map Step.id).Nodup)
    {m : Step η} (hm : m ∈ steps) : steps.find? (·.id == m.id) = some m := by
  have hsome : (steps.find? (·.id == m.id)).isSome :=
    List.find?_isSome.2 ⟨m, hm, beq_self_eq_true m.id⟩
  obtain ⟨m', hm'⟩ := Option.isSome_iff_exists.1 hsome
  have hid : m'.id = m.id := by simpa using List.find?_some hm'
  rw [hm', List.inj_on_of_nodup_map h (List.mem_of_find?_eq_some hm') hm hid]

theorem step?_eq_none_iff {s : Script} {id : String} :
    s.step? id = none ↔ ∀ m ∈ s.steps, m.id ≠ id := by
  simp [step?, List.find?_eq_none]

/-- **No step hides a sibling.** In a compiled script siblings have different ids. So each main step
is found by its id, and nothing is found for an id that no main step has. -/
theorem distinct_ids_of_compile {unit : Nat} {text : String} {s : Script}
    (h : compile unit text = .ok s) :
    s.HasDistinctIds ∧
      (∀ (i : Nat) (hi : i < s.steps.length), s.step? s.steps[i].id = some s.steps[i]) ∧
      ∀ id, s.step? id = none ↔ ∀ m ∈ s.steps, m.id ≠ id := by
  obtain ⟨root, ts, hroot, hts, hs⟩ := compile_eq_ok_iff.1 h
  obtain ⟨-, rfl⟩ := isScript_and_eq_scriptOf hts hs
  have hids := hasDistinctIds_scriptOf (Document.hasDistinctKeys_of_load hroot)
  exact ⟨hids, fun i hi => find?_id_eq_some hids.steps (List.getElem_mem hi),
    fun _ => step?_eq_none_iff⟩

/-- A hook `a` of the step `a`, beside a hook `b` before all steps: no two of them are siblings. -/
theorem distinct_ids_of_hooks :
    ∃ s, compile 2 "issue: T\nbefore:\n  b:\nsteps:\n  a:\n    after:\n      a:\n  c:\n" = .ok s ∧
      s.allSteps.map Step.id = ["b", "a", "a", "c"] ∧ s.HasDistinctIds ∧
      (s.step? "b").isNone := by
  have hrun : (compile 2
      "issue: T\nbefore:\n  b:\nsteps:\n  a:\n    after:\n      a:\n  c:\n").toOption.map
        (fun s => (s.allSteps.map Step.id, (s.step? "b").isNone)) =
      some (["b", "a", "a", "c"], true) := by
    decide +kernel
  cases h : compile 2 "issue: T\nbefore:\n  b:\nsteps:\n  a:\n    after:\n      a:\n  c:\n" with
  | error e =>
    rw [h] at hrun
    cases hrun
  | ok s =>
    rw [h] at hrun
    obtain ⟨hsteps, hnone⟩ := Prod.mk.inj (Option.some.inj hrun)
    exact ⟨s, rfl, hsteps, (distinct_ids_of_compile h).1, hnone⟩

end Script
end TestScript
