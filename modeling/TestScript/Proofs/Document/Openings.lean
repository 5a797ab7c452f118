import TestScript.Proofs.Document.Construction
import TestScript.Proofs.Document.Members

/-!
# What stands at the marks of mappings

The builder takes a mapping for an inline one if its first key stands behind its mark. So if each
mapping of a stream has a first key that does not, or else something at its mark that introduces it,
then in the tree that the stream describes something introduces each inline mapping, and each that
is empty (`DescribesMapping.introduced`). All others take the place of their first key; if that key
is missing, they stand where it is missing (`DescribesMapping.missing`).
-/

namespace TestScript.Document.Described

open Yaml (Event Style)

/-- Where a node is marked. -/
def position : Described → Position
  | .alias p | .scalar _ _ p | .sequence p _ _ | .mapping p _ _ => p

/-- A node that is told, but not written. -/
def IsMissing (d : Described) : Prop :=
  ∃ p, d = .scalar .plain "" p

/-- A mapping is marked where `P` holds, unless its first key is not behind its mark. If that key is
missing, `Q` holds of its place. -/
structure OpensWithin (P Q : Position → Prop) (start : Position)
    (entries : List (Described × Described)) : Prop where
  introduced : P start ∨ ∃ e ∈ entries.head?, e.1.position ≤ start
  missing : ∀ e ∈ entries.head?, e.1.IsMissing → e.1.position ≤ start → Q e.1.position

mutual

/-- What holds of the marks of all mappings of a node. -/
def Opened (P Q : Position → Prop) : Described → Prop
  | .alias _ | .scalar .. => True
  | .sequence _ items _ => ItemsOpened P Q items
  | .mapping start entries _ => OpensWithin P Q start entries ∧ EntriesOpened P Q entries

def ItemsOpened (P Q : Position → Prop) : List Described → Prop
  | [] => True
  | item :: items => item.Opened P Q ∧ ItemsOpened P Q items

def EntriesOpened (P Q : Position → Prop) : List (Described × Described) → Prop
  | [] => True
  | (key, value) :: entries => key.Opened P Q ∧ value.Opened P Q ∧ EntriesOpened P Q entries

end

theorem IsScalar.snd_key {key : Described} (h : key.IsScalar) : key.key.2 = key.position := by
  cases key with
  | scalar => rfl
  | _ => exact h.elim

variable {P Q : Position → Prop} {es es' : List Event} {entries : List (Entry Node)}
  {p : Position} {flow : Bool}

/-- A mapping of a tree is described by members whose events are among others. -/
def DescribesMapping (P Q : Position → Prop) (es : List Event) (entries : List (Entry Node))
    (p : Position) (flow : Bool) : Prop :=
  ∃ start members, OpensWithin P Q start members ∧ EntriesAreTrees members ∧
    entries = entryTrees members ∧ (p, flow) = mappingPlace start entries ∧
    ∀ x ∈ entryEvents members, x ∈ es

theorem DescribesMapping.mono (h : DescribesMapping P Q es entries p flow)
    (hes : ∀ x ∈ es, x ∈ es') : DescribesMapping P Q es' entries p flow := by
  obtain ⟨start, members, hopens, htrees, hentries, hplace, hevents⟩ := h
  exact ⟨start, members, hopens, htrees, hentries, hplace, fun x hx => hes x (hevents x hx)⟩

/-- An inline mapping has its own mark, and so has an empty one. -/
theorem DescribesMapping.introduced (h : DescribesMapping P Q es entries p flow)
    (hflow : flow = true ∨ entries = []) : P p := by
  obtain ⟨start, members, hopens, htrees, rfl, hplace, -⟩ := h
  cases members with
  | nil =>
    cases hplace
    exact hopens.introduced.resolve_right fun ⟨_, he, _⟩ => Option.not_mem_none _ he
  | cons e members =>
    obtain ⟨key, value⟩ := e
    rw [entryTrees, mappingPlace] at hplace
    split at hplace
    · cases hplace
      simp [entryTrees] at hflow
    · next hbehind =>
      cases hplace
      refine hopens.introduced.resolve_right ?_
      rintro ⟨_, ⟨⟩, hle⟩
      exact hbehind (htrees.1.snd_key ▸ hle)

/-- A mapping that is not inline has the mark of its first key, also if that is missing. -/
theorem DescribesMapping.missing {e : Entry Node}
    (h : DescribesMapping P Q es (e :: entries) p false) (hmissing : e.key = "")
    (hplain : ∀ style, ⟨e.position, .scalar style e.key⟩ ∈ es → style = .plain) : Q p := by
  obtain ⟨start, members, hopens, htrees, hentries, hplace, hevents⟩ := h
  cases members with
  | nil => cases hentries
  | cons member members =>
    obtain ⟨key, value⟩ := member
    rw [entryTrees, List.cons.injEq] at hentries
    obtain ⟨rfl, rfl⟩ := hentries
    cases key with
    | scalar style text q =>
      obtain rfl : text = "" := hmissing
      have hmem : ⟨q, .scalar style ""⟩ ∈ entryEvents ((.scalar style "" q, value) :: members) := by
        rw [entryEvents, Described.events]
        exact List.mem_cons_self
      obtain rfl : style = .plain := hplain style (hevents _ hmem)
      rw [mappingPlace] at hplace
      split at hplace
      · next hle =>
        cases hplace
        exact hopens.missing _ rfl ⟨q, rfl⟩ hle
      · cases hplace
    | _ => exact htrees.1.elim

mutual

/-- **Each mapping of a tree is described by a mapping of the node.** -/
theorem Opened.of_isPart : {d : Described} → d.Opened P Q → d.IsTree →
    (Node.mapping entries p flow).IsPart d.tree → DescribesMapping P Q d.events entries p flow
  | .scalar style text q, _, _, hpart => by
    rw [tree, scalarTree] at hpart
    split at hpart <;> cases hpart
  | .sequence start items stop, h, htree, hpart => by
    rw [tree] at hpart
    cases hpart with
    | item hitem hpart =>
      refine (ItemsOpened.of_isPart h htree _ hitem hpart).mono fun x hx => ?_
      rw [events]
      exact List.mem_cons_of_mem _ (List.mem_append_left _ hx)
  | .mapping start members stop, h, htree, hpart => by
    rw [tree] at hpart
    have hevents : ∀ x ∈ entryEvents members, x ∈ (mapping start members stop).events := by
      intro x hx
      rw [events]
      exact List.mem_cons_of_mem _ (List.mem_append_left _ hx)
    cases hpart with
    | self => exact ⟨start, members, h.1, htree.2, rfl, rfl, hevents⟩
    | entry he hpart => exact (EntriesOpened.of_isPart h.2 htree.2 _ he hpart).mono hevents

theorem ItemsOpened.of_isPart : {items : List Described} → ItemsOpened P Q items →
    ItemsAreTrees items → ∀ n ∈ itemTrees items, (Node.mapping entries p flow).IsPart n →
      DescribesMapping P Q (itemEvents items) entries p flow
  | item :: items, h, htrees, n, hn, hpart => by
    rw [itemTrees] at hn
    rw [itemEvents]
    rcases List.mem_cons.1 hn with rfl | hn
    · exact (h.1.of_isPart htrees.1 hpart).mono fun _ => List.mem_append_left _
    · exact (ItemsOpened.of_isPart h.2 htrees.2 n hn hpart).mono fun _ => List.mem_append_right _

theorem EntriesOpened.of_isPart : {members : List (Described × Described)} →
    EntriesOpened P Q members → EntriesAreTrees members → ∀ e ∈ entryTrees members,
      (Node.mapping entries p flow).IsPart e.value →
      DescribesMapping P Q (entryEvents members) entries p flow
  | (key, value) :: members, h, htrees, e, he, hpart => by
    rw [entryTrees] at he
    rw [entryEvents]
    rcases List.mem_cons.1 he with rfl | he
    · refine (h.2.1.of_isPart htrees.2.1 hpart).mono fun x hx => ?_
      exact List.mem_append_left _ (List.mem_append_right _ hx)
    · exact (EntriesOpened.of_isPart h.2.2 htrees.2.2 e he hpart).mono fun _ =>
        List.mem_append_right _

end

end TestScript.Document.Described
