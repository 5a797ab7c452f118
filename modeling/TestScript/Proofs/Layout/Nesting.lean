import TestScript.Proofs.Layout.Placed

/-!
# How the entries of a document are nested

In reading order the entries below a key are those behind it that are deeper than it, up to the
next that is not. So a list of entries tells by its levels alone below which key each of them
stands, and this key says what the identifiers there are (`nested_placed`).
-/

namespace TestScript.Script

open Document (Node Entry)

variable {c : Context} {d : Nat} {x : Placed} {xs ys rest : List Placed}

/-- The entries of a level in front of the next that is above that level have this context. -/
def Under (c : Context) (d : Nat) (xs : List Placed) : Prop :=
  ∀ y ∈ xs.takeWhile (d ≤ ·.level), y.level = d → y.context = c

/-- Each entry is followed by the entries below it. -/
def Nested : List Placed → Prop
  | [] => True
  | x :: xs => Under (x.role.opens.getD .body) (x.level + 1) xs ∧ Nested xs

/-- What stands behind entries of a level, or deeper ones, still stands under the same key. -/
theorem Under.of_append (h : Under c d (xs ++ ys)) (hxs : ∀ x ∈ xs, d ≤ x.level) :
    Under c d ys := by
  intro y hy
  apply h
  rw [List.takeWhile_append_of_pos (by simpa using hxs)]
  exact List.mem_append_right xs hy

theorem Under.head (h : Under c d (x :: xs)) (hx : x.level = d) : x.context = c := by
  apply h x _ hx
  rw [List.takeWhile_cons_of_pos (by simp [hx])]
  exact List.mem_cons_self

theorem Nested.of_append (h : Nested (xs ++ ys)) : Nested ys := by
  induction xs with
  | nil => exact h
  | cons x xs ih => exact ih h.2

/-! ## Blocks of entries -/

/-- The next entry, if there is one, is not deeper than a level. -/
def Closes (d : Nat) (rest : List Placed) : Prop :=
  ∀ y ∈ rest.head?, y.level ≤ d

/-- Some entries are all that stands below one key, at a level. -/
structure IsBelow (c : Context) (d : Nat) (xs : List Placed) : Prop where
  le_level : ∀ x ∈ xs, d ≤ x.level
  context_eq : ∀ x ∈ xs, x.level = d → x.context = c
  closes_append : ∀ rest, Closes d rest → Closes d (xs ++ rest)
  nested_append : ∀ rest, Closes d rest → Nested rest → Nested (xs ++ rest)

theorem IsBelow.nil : IsBelow c d [] where
  le_level x hx := by simp at hx
  context_eq x hx := by simp at hx
  closes_append _ h := h
  nested_append _ _ h := h

theorem IsBelow.append (hxs : IsBelow c d xs) (hys : IsBelow c d ys) : IsBelow c d (xs ++ ys) where
  le_level := List.forall_mem_append.2 ⟨hxs.le_level, hys.le_level⟩
  context_eq := List.forall_mem_append.2 ⟨hxs.context_eq, hys.context_eq⟩
  closes_append rest h := by
    rw [List.append_assoc]
    exact hxs.closes_append _ (hys.closes_append rest h)
  nested_append rest hrest h := by
    rw [List.append_assoc]
    exact hxs.nested_append _ (hys.closes_append rest hrest) (hys.nested_append rest hrest h)

/-- The entries below a key end where one follows that is not deeper than the key. -/
theorem IsBelow.under_append (h : IsBelow c (d + 1) xs) (hrest : Closes d rest) :
    Under c (d + 1) (xs ++ rest) := by
  have hstop : rest.takeWhile (d + 1 ≤ ·.level) = [] := by
    cases rest with
    | nil => rfl
    | cons y rest =>
      have hy : y.level ≤ d := hrest y rfl
      rw [List.takeWhile_cons_of_neg (by simp; omega)]
  intro y hy
  rw [List.takeWhile_append_of_pos (by simpa using h.le_level), hstop, List.append_nil] at hy
  exact h.context_eq y hy

/-- A key and the entries below it. -/
theorem IsBelow.cons (hx : x.level = d) (hc : x.context = c)
    (h : IsBelow (x.role.opens.getD .body) (d + 1) xs) : IsBelow c d (x :: xs) where
  le_level := List.forall_mem_cons.2
    ⟨Nat.le_of_eq hx.symm, fun y hy => Nat.le_of_succ_le (h.le_level y hy)⟩
  context_eq := by
    refine List.forall_mem_cons.2 ⟨fun _ => hc, fun y hy hd => ?_⟩
    have hle := h.le_level y hy
    omega
  closes_append rest _ y hy := by
    obtain rfl : x = y := by simpa using hy
    exact Nat.le_of_eq hx
  nested_append rest hrest hnested := by
    have hcloses : Closes (d + 1) rest := fun y hy =>
      Nat.le_trans (hrest y hy) (Nat.le_succ d)
    refine ⟨?_, h.nested_append rest hcloses hnested⟩
    rw [hx]
    exact h.under_append hrest

mutual

theorem isBelow_placedEntries (level : Nat) (context : Context) :
    (entries : List (Entry Node)) → IsBelow context level (placedEntries level context entries)
  | [] => by
    rw [placedEntries]
    exact .nil
  | ⟨key, p, value⟩ :: entries => by
    have hfirst : IsBelow context level _ :=
      IsBelow.cons (x := ⟨level, context, ⟨key, p, value⟩⟩) rfl rfl
        (isBelow_placedBelow (level + 1) _ value)
    rw [placedEntries]
    exact hfirst.append (isBelow_placedEntries level context entries)

theorem isBelow_placedBelow (level : Nat) (role : Role) :
    (value : Node) → IsBelow (role.opens.getD .body) level (placedBelow level role value)
  | .mapping entries _ _ => by
    rw [placedBelow]
    split
    · exact .nil
    · exact isBelow_placedEntries level _ entries
  | .list items _ => by
    rw [placedBelow]
    split
    · exact .nil
    · exact isBelow_placedItems level role items
  | .scalar .. | .null _ => by
    rw [placedBelow]
    exact .nil

theorem isBelow_placedItems (level : Nat) (role : Role) :
    (items : List Node) → IsBelow (role.opens.getD .body) level (placedItems level role items)
  | [] => by
    rw [placedItems]
    exact .nil
  | item :: items => by
    rw [placedItems]
    exact (isBelow_placedBelow level role item).append (isBelow_placedItems level role items)

end

/-- **The entries of a document in reading order are nested as their levels say.** -/
theorem nested_placed (root : Node) : Nested (placed root) := by
  have h := (isBelow_placedBelow 0 .other root).nested_append [] (fun y hy => by simp at hy) trivial
  rwa [List.append_nil] at h

end TestScript.Script
