import Mathlib
import TestScript.Document.Payload
import TestScript.Proofs.Document.Keys

/-!
# The payload of a document keeps its shape

The members of an object are set one by one, and a key that is set again takes the new value. So the
payload of a mapping has each of its keys once, in the first place and with the last value
(`takesLast_memberPayloads`). Nothing is lost where no key is there twice, and in a loaded document
none is: the payload of each of its nodes has the shape of the node (`keepsShape_of_load`).
-/

namespace TestScript

namespace Payload

/-- A text, a number or a boolean. -/
def IsAtom : Payload → Prop
  | .text _ | .int _ | .float _ | .bool _ => True
  | .null | .list _ | .object _ => False

/-- A member that is set is there with its value, and the others are as before. -/
theorem mem_setMember {key : String} {value : Payload} {members : List (String × Payload)}
    (h : (members.map Prod.fst).Nodup) {k : String} {v : Payload} :
    (k, v) ∈ setMember key value members ↔
      k = key ∧ v = value ∨ k ≠ key ∧ (k, v) ∈ members := by
  induction members with
  | nil => simp [setMember]
  | cons m ms ih =>
    obtain ⟨k', v'⟩ := m
    rw [List.map_cons, List.nodup_cons] at h
    obtain ⟨hk', hms⟩ := h
    rw [setMember]
    split
    · next hkey =>
      -- The key is not there again, so what stands behind it has other keys.
      have hne : (k, v) ∈ ms → k ≠ k' := by
        rintro hmem rfl
        exact hk' (List.mem_map.2 ⟨_, hmem, rfl⟩)
      grind
    · next hkey => grind

end Payload

namespace Document.Node

open Payload (setMember keys_setMember mem_setMember)

/-! ## Repeated keys -/

/-- The members of an object are the entries of a mapping, but a key that is there more than once
has only its first place and only its last value. -/
structure TakesLast (entries : List (Entry Node)) (members : List (String × Payload)) : Prop where
  nodup : (members.map Prod.fst).Nodup
  keys_eq : members.map Prod.fst = (entries.map Entry.key).eraseDups
  mem_iff : ∀ key payload, (key, payload) ∈ members ↔
    ∃ before e after, entries = before ++ e :: after ∧ e.key = key ∧
      (∀ e' ∈ after, e'.key ≠ key) ∧ payload = e.value.toPayload

theorem memberPayloads_append (entries entries' : List (Entry Node))
    (members : List (String × Payload)) :
    memberPayloads (entries ++ entries') members =
      memberPayloads entries' (memberPayloads entries members) := by
  induction entries generalizing members with
  | nil => rfl
  | cons e entries ih => rw [List.cons_append, memberPayloads, memberPayloads, ih]

theorem memberPayloads_concat (entries : List (Entry Node)) (e : Entry Node) :
    memberPayloads (entries ++ [e]) [] =
      setMember e.key e.value.toPayload (memberPayloads entries []) := by
  rw [memberPayloads_append]
  rfl

/-- Where the last entry of a list stands among its entries. -/
theorem concat_eq_append_cons_iff {α : Type} {xs before after : List α} {x y : α} :
    xs ++ [y] = before ++ x :: after ↔
      xs = before ∧ y = x ∧ after = [] ∨
        ∃ after', xs = before ++ x :: after' ∧ after = after' ++ [y] := by
  obtain rfl | ⟨after, z, rfl⟩ := List.eq_nil_or_concat' after
  · simp
  · have hassoc : before ++ x :: (after ++ [z]) = (before ++ x :: after) ++ [z] := by simp
    rw [hassoc, List.append_singleton_inj]
    constructor
    · rintro ⟨rfl, rfl⟩
      exact .inr ⟨after, rfl, rfl⟩
    · rintro (⟨-, -, h⟩ | ⟨after', rfl, h⟩)
      · cases List.append_ne_nil_of_right_ne_nil after (List.cons_ne_nil z []) h
      · obtain ⟨rfl, rfl⟩ := List.append_singleton_inj.1 h
        exact ⟨rfl, rfl⟩

/-- One more entry is one more member, or it takes the place of the one that has its key. -/
theorem TakesLast.concat {entries : List (Entry Node)} {members : List (String × Payload)}
    (h : TakesLast entries members) (e : Entry Node) :
    TakesLast (entries ++ [e]) (setMember e.key e.value.toPayload members) where
  nodup := by
    rw [keys_setMember]
    split
    · exact h.nodup
    · next hkey =>
      rw [← List.concat_eq_append]
      exact h.nodup.concat hkey
  keys_eq := by
    rw [keys_setMember, h.keys_eq, List.map_append, List.map_singleton, List.eraseDups_append,
      List.removeAll, List.filter_singleton]
    by_cases hkey : e.key ∈ entries.map Entry.key <;> simp [hkey, List.eraseDups_cons]
  mem_iff key payload := by
    rw [mem_setMember h.nodup, h.mem_iff]
    simp only [concat_eq_append_cons_iff]
    constructor
    · rintro (⟨rfl, rfl⟩ | ⟨hne, before, e', after, rfl, hkey, hafter, hpayload⟩)
      · exact ⟨entries, e, [], .inl ⟨rfl, rfl, rfl⟩, rfl, by simp, rfl⟩
      · exact ⟨before, e', after ++ [e], .inr ⟨after, rfl, rfl⟩, hkey, by grind, hpayload⟩
    · rintro ⟨before, e', after, ⟨rfl, rfl, rfl⟩ | ⟨after, rfl, rfl⟩, rfl, hafter, rfl⟩
      · exact .inl ⟨rfl, rfl⟩
      · exact .inr ⟨by grind, before, e', after, rfl, rfl, by grind, rfl⟩

/-- **A key that is there more than once keeps its first place and takes its last value.** -/
theorem takesLast_memberPayloads (entries : List (Entry Node)) :
    TakesLast entries (memberPayloads entries []) := by
  induction entries using List.reverseRecOn with
  | nil => exact ⟨List.nodup_nil, rfl, by simp [memberPayloads]⟩
  | append_singleton entries e ih =>
    rw [memberPayloads_concat]
    exact ih.concat e

/-! ## Distinct keys -/

/-- A member with a new key goes to the end. -/
theorem setMember_of_not_mem {key : String} {value : Payload} {members : List (String × Payload)}
    (h : key ∉ members.map Prod.fst) : setMember key value members = members ++ [(key, value)] := by
  induction members with
  | nil => rfl
  | cons m ms ih =>
    rw [List.map_cons, List.mem_cons, not_or] at h
    rw [setMember, if_neg (Ne.symm h.1), ih h.2, List.cons_append]

/-- Distinct keys give a member for each entry, in order. -/
theorem memberPayloads_of_nodup {entries : List (Entry Node)}
    (h : (entries.map Entry.key).Nodup) :
    memberPayloads entries [] = entries.map fun e => (e.key, e.value.toPayload) := by
  induction entries using List.reverseRecOn with
  | nil => rfl
  | append_singleton entries e ih =>
    rw [List.map_append, List.map_singleton, List.nodup_append] at h
    obtain ⟨hentries, -, hdisjoint⟩ := h
    have hkey : e.key ∉ (entries.map fun e => (e.key, e.value.toPayload)).map Prod.fst := by
      rw [List.map_map]
      exact fun hmem => hdisjoint e.key hmem e.key (List.mem_singleton_self _) rfl
    rw [memberPayloads_concat, ih hentries, setMember_of_not_mem hkey, List.map_append,
      List.map_singleton]

theorem itemPayloads_eq_map (items : List Node) : itemPayloads items = items.map toPayload := by
  induction items with
  | nil => rfl
  | cons item items ih => rw [itemPayloads, ih, List.map_cons]

/-- The value of a scalar is never null, and no collection. -/
theorem isAtom_scalarPayload (text : String) (quoted : Bool) :
    (scalarPayload text quoted).IsAtom := by
  unfold scalarPayload plainPayload
  split
  · trivial
  · split
    · split <;> trivial
    · split
      · trivial
      · split
        · trivial
        · split <;> trivial

/-! ## Whole documents -/

/-- A node is another one, or it stands somewhere below an entry or an item of it. -/
inductive IsPart (n : Node) : Node → Prop
  | self : IsPart n n
  | entry {entries : List (Entry Node)} {p : Position} {flow : Bool} {e : Entry Node}
    (he : e ∈ entries) (h : IsPart n e.value) : IsPart n (.mapping entries p flow)
  | item {items : List Node} {p : Position} {item : Node} (hitem : item ∈ items)
    (h : IsPart n item) : IsPart n (.list items p)

/-- The payload of a node has just the members and items that the node has, in order and each of
them converted; nothing is null, and any other scalar is an atom. -/
def KeepsShape : Node → Prop
  | n@(.mapping entries _ _) =>
    n.toPayload = .object (entries.map fun e => (e.key, e.value.toPayload))
  | n@(.list items _) => n.toPayload = .list (items.map toPayload)
  | n@(.scalar ..) => n.toPayload.IsAtom
  | n@(.null _) => n.toPayload = .null

theorem HasDistinctKeys.keepsShape {n : Node} (h : n.HasDistinctKeys) : n.KeepsShape := by
  cases n with
  | mapping entries p flow => rw [KeepsShape, toPayload, memberPayloads_of_nodup h.1]
  | list items p => rw [KeepsShape, toPayload, itemPayloads_eq_map]
  | scalar text quoted p => exact isAtom_scalarPayload text quoted
  | null p => rfl

theorem IsPart.hasDistinctKeys {n root : Node} (h : n.IsPart root) (hroot : root.HasDistinctKeys) :
    n.HasDistinctKeys := by
  induction h with
  | self => exact hroot
  | entry he _ ih => exact ih (entriesHaveDistinctKeys_iff.1 hroot.2 _ he)
  | item hitem _ ih => exact ih (itemsHaveDistinctKeys_iff.1 hroot _ hitem)

/-- **The payload of a loaded document has its shape, part by part**, since no key is there twice in
any mapping of it. Of a mapping that has a key twice, the payload keeps the first place of the key
and its last value. -/
theorem keepsShape_of_load :
    (∀ (text : String) (root n : Node), load text = .ok root → n.IsPart root → n.KeepsShape) ∧
      ∀ (entries : List (Entry Node)) (p : Position) (flow : Bool),
        ∃ members, (Node.mapping entries p flow).toPayload = .object members ∧
          TakesLast entries members :=
  ⟨fun _ _ _ hload hpart => (hpart.hasDistinctKeys (hasDistinctKeys_of_load hload)).keepsShape,
    fun entries _ _ => ⟨_, by rw [toPayload], takesLast_memberPayloads entries⟩⟩

/-- An inline mapping below an entry, with a list in it. -/
def inlineValue : Node :=
  .mapping [⟨"z", ⟨0, 4⟩, .scalar "1" true ⟨0, 7⟩⟩,
    ⟨"b", ⟨0, 12⟩, .list [.scalar "1" false ⟨0, 16⟩, .null ⟨0, 19⟩] ⟨0, 15⟩⟩] ⟨0, 3⟩ true

theorem keepsShape_inlineValue :
    ∃ root, load "a: \x7bz: '1', b: [1, ~]\x7d\n" = .ok root ∧ inlineValue.IsPart root ∧
      inlineValue.KeepsShape := by
  have hload : load "a: \x7bz: '1', b: [1, ~]\x7d\n" =
      .ok (.mapping [⟨"a", ⟨0, 0⟩, inlineValue⟩] ⟨0, 0⟩ false) := by
    cbv
  have hpart : inlineValue.IsPart (.mapping [⟨"a", ⟨0, 0⟩, inlineValue⟩] ⟨0, 0⟩ false) :=
    .entry List.mem_cons_self .self
  exact ⟨_, hload, hpart, keepsShape_of_load.1 _ _ _ hload hpart⟩

end Document.Node
end TestScript
