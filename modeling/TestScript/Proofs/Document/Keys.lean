import TestScript.Proofs.Document.Invariants

/-!
# The keys of a loaded document

No mapping of a document that can be loaded has a key twice (`hasDistinctKeys_of_load`). The builder
compares a key only with the entries that are finished, and only in the innermost mapping. So the
invariant is one of all open collections at once: the keys of each, together with the one that waits
for its value, are distinct, and so are those of all nodes that are finished. It holds after any
events, whether they nest or not.
-/

namespace TestScript.Document

open Yaml (Event)

/-! ## Nodes -/

mutual

/-- No mapping in a node has a key twice. -/
def Node.HasDistinctKeys : Node → Prop
  | .mapping entries _ _ => (entries.map Entry.key).Nodup ∧ EntriesHaveDistinctKeys entries
  | .list items _ => ItemsHaveDistinctKeys items
  | .scalar .. | .null _ => True

def EntriesHaveDistinctKeys : List (Entry Node) → Prop
  | [] => True
  | ⟨_, _, value⟩ :: entries => value.HasDistinctKeys ∧ EntriesHaveDistinctKeys entries

def ItemsHaveDistinctKeys : List Node → Prop
  | [] => True
  | item :: items => item.HasDistinctKeys ∧ ItemsHaveDistinctKeys items

end

theorem entriesHaveDistinctKeys_iff {entries : List (Entry Node)} :
    EntriesHaveDistinctKeys entries ↔ ∀ e ∈ entries, e.value.HasDistinctKeys := by
  induction entries with
  | nil => simp [EntriesHaveDistinctKeys]
  | cons e entries ih => rw [EntriesHaveDistinctKeys, ih, List.forall_mem_cons]

theorem itemsHaveDistinctKeys_iff {items : List Node} :
    ItemsHaveDistinctKeys items ↔ ∀ item ∈ items, item.HasDistinctKeys := by
  induction items with
  | nil => simp [ItemsHaveDistinctKeys]
  | cons item items ih => rw [ItemsHaveDistinctKeys, ih, List.forall_mem_cons]

/-! ## Open collections -/

namespace Frame

/-- The keys of an open mapping, the one that waits among them. -/
def keys : Frame → List String
  | .mapping entries _ _ pending => entries.map Entry.key ++ (pending.map Prod.fst).toList
  | .list .. => []

/-- The nodes that are finished in an open collection. -/
def nodes : Frame → List Node
  | .mapping entries _ _ _ => entries.map Entry.value
  | .list items _ => items

/-- No key is there twice, neither in the collection nor in one of its nodes. -/
structure HasDistinctKeys (f : Frame) : Prop where
  nodup : f.keys.Nodup
  nodes : ∀ n ∈ f.nodes, n.HasDistinctKeys

variable {f : Frame}

theorem hasKey_iff {key : String} : f.hasKey key = true ↔
    ∃ entries start flow pending, f = .mapping entries start flow pending ∧
      key ∈ entries.map Entry.key := by
  cases f <;> simp [hasKey]

theorem nodes_takeKey (key : String) (p : Position) : (f.takeKey key p).nodes = f.nodes := by
  cases f with
  | list items start => rfl
  | mapping entries start flow pending =>
    cases entries with
    | nil =>
      rw [takeKey]
      split <;> rfl
    | cons e entries => rfl

/-- A key that the finished entries do not have may wait for its value. -/
theorem HasDistinctKeys.takeKey (h : f.HasDistinctKeys) {key : String}
    (hkey : f.hasKey key = false) (p : Position) : (f.takeKey key p).HasDistinctKeys := by
  refine ⟨?_, by rw [nodes_takeKey]; exact h.nodes⟩
  cases f with
  | list items start => exact List.nodup_nil
  | mapping entries start flow pending =>
    have hkeys : ((Frame.mapping entries start flow pending).takeKey key p).keys =
        entries.map Entry.key ++ [key] := by
      cases entries with
      | nil =>
        rw [Frame.takeKey]
        split <;> rfl
      | cons e entries => rfl
    have hnew : key ∉ entries.map Entry.key := by
      intro hmem
      rw [hasKey_iff.2 ⟨entries, start, flow, pending, rfl, hmem⟩] at hkey
      cases hkey
    rw [hkeys, List.nodup_append]
    refine ⟨(List.nodup_append.1 h.nodup).1, by simp, ?_⟩
    rintro k hk k' hk' rfl
    exact hnew (List.mem_singleton.1 hk' ▸ hk)

theorem HasDistinctKeys.takeNode (h : f.HasDistinctKeys) {n : Node} (hn : n.HasDistinctKeys) :
    (f.takeNode n).HasDistinctKeys := by
  cases f with
  | list items start =>
    exact ⟨List.nodup_nil, List.forall_mem_append.2 ⟨h.nodes, List.forall_mem_singleton.2 hn⟩⟩
  | mapping entries start flow pending =>
    cases pending with
    | none => exact h
    | some key =>
      refine ⟨by simpa [keys, Frame.takeNode] using h.nodup, ?_⟩
      rw [Frame.takeNode, Frame.nodes, List.map_append]
      exact List.forall_mem_append.2 ⟨h.nodes, List.forall_mem_singleton.2 hn⟩

theorem HasDistinctKeys.close (h : f.HasDistinctKeys) : f.close.HasDistinctKeys := by
  cases f with
  | list items start => exact itemsHaveDistinctKeys_iff.2 h.nodes
  | mapping entries start flow pending =>
    refine ⟨(List.nodup_append.1 h.nodup).1, entriesHaveDistinctKeys_iff.2 fun e he => ?_⟩
    exact h.nodes e.value (List.mem_map_of_mem he)

end Frame

/-! ## Loaded documents -/

/-- The builder keeps the keys distinct, whatever the events are. -/
theorem invariant_hasDistinctKeys :
    Builder.Invariant (fun _ => True) Frame.HasDistinctKeys Node.HasDistinctKeys where
  takeKey _ h hkey := h.takeKey hkey _
  takeNode h hn := h.takeNode hn
  close := Frame.HasDistinctKeys.close
  null _ _ := trivial
  nothing := trivial
  scalar _ _ := trivial
  mapping _ := ⟨List.nodup_nil, nofun⟩
  list _ := ⟨List.nodup_nil, nofun⟩

theorem hasDistinctKeys_of_ofEvents {es : List Event} {root : Node} (h : ofEvents es = .ok root) :
    root.HasDistinctKeys :=
  invariant_hasDistinctKeys.root (fun _ _ => trivial) h

/-- **No mapping of a loaded document has a key twice.** -/
theorem hasDistinctKeys_of_load {text : String} {root : Node} (h : load text = .ok root) :
    root.HasDistinctKeys := by
  rw [load] at h
  cases hevents : (Yaml.Event.ofText text).mapError fun f =>
      (⟨.fault f.cause, f.position⟩ : LoadError) with
  | error e =>
    rw [hevents] at h
    cases h
  | ok es =>
    rw [hevents] at h
    exact hasDistinctKeys_of_ofEvents h

end TestScript.Document
