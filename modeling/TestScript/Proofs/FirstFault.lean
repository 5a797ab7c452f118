/-!
# The first fault

Things in a row, each of which may have faults. The first one that has a fault tells the fault of
the whole row.
-/

namespace TestScript

variable {α ε : Type} {fault : α → ε → Prop} {x : α} {xs ys : List α} {e : ε}

/-- A fault of the first thing in a row that has any. -/
def FirstFault (fault : α → ε → Prop) (xs : List α) (e : ε) : Prop :=
  ∃ before x after, xs = before ++ x :: after ∧ (∀ y ∈ before, ∀ e', ¬ fault y e') ∧ fault x e

@[simp] theorem firstFault_nil : ¬ FirstFault fault [] e := by
  rintro ⟨before, x, after, h, -⟩
  simp at h

theorem firstFault_cons :
    FirstFault fault (x :: xs) e ↔ fault x e ∨ (∀ e', ¬ fault x e') ∧ FirstFault fault xs e := by
  constructor
  · rintro ⟨before, y, after, h, hbefore, hy⟩
    cases before with
    | nil =>
      obtain ⟨rfl, rfl⟩ := List.cons.inj h
      exact .inl hy
    | cons z before =>
      obtain ⟨rfl, rfl⟩ := List.cons.inj h
      obtain ⟨hz, hbefore⟩ := List.forall_mem_cons.1 hbefore
      exact .inr ⟨hz, before, y, after, rfl, hbefore, hy⟩
  · rintro (hx | ⟨hx, before, y, after, rfl, hbefore, hy⟩)
    · exact ⟨[], x, xs, rfl, by simp, hx⟩
    · exact ⟨x :: before, y, after, rfl, List.forall_mem_cons.2 ⟨hx, hbefore⟩, hy⟩

theorem firstFault_append :
    FirstFault fault (xs ++ ys) e ↔
      FirstFault fault xs e ∨ (∀ x ∈ xs, ∀ e', ¬ fault x e') ∧ FirstFault fault ys e := by
  induction xs with
  | nil => simp
  | cons x xs ih =>
    rw [List.cons_append, firstFault_cons, firstFault_cons, ih, List.forall_mem_cons, and_or_left,
      and_assoc, or_assoc]

/-- A row has a fault if one of its things has. -/
theorem exists_firstFault_iff :
    (∃ e, FirstFault fault xs e) ↔ ∃ x ∈ xs, ∃ e, fault x e := by
  constructor
  · rintro ⟨e, before, x, after, rfl, -, hx⟩
    exact ⟨x, List.mem_append_right _ List.mem_cons_self, e, hx⟩
  · induction xs with
    | nil => simp
    | cons x xs ih =>
      rintro ⟨y, hy, e, he⟩
      by_cases hx : ∃ e', fault x e'
      · obtain ⟨e', he'⟩ := hx
        exact ⟨e', firstFault_cons.2 (.inl he')⟩
      · obtain rfl | hy := List.mem_cons.1 hy
        · exact (hx ⟨e, he⟩).elim
        · obtain ⟨e', he'⟩ := ih ⟨y, hy, e, he⟩
          exact ⟨e', firstFault_cons.2 (.inr ⟨fun e'' h => hx ⟨e'', h⟩, he'⟩)⟩

end TestScript
