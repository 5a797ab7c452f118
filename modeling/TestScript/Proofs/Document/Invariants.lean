import TestScript.Document.Load

/-!
# What the builder keeps

A property of open collections and one of nodes may go hand in hand: what an event adds to a
collection keeps its property, and when the collection closes it is a node that has the other one.
Then all that is built has them, after any events, whether they nest or not (`Invariant.run`).
-/

namespace TestScript.Document

open Yaml (Event Style)

namespace Builder

variable {E : Event → Prop} {F : Frame → Prop} {N : Node → Prop} {b : Builder}

/-- Open collections have the property `F` and nodes the property `N`, as long as the events that
are taken have the property `E`. -/
structure Invariant (E : Event → Prop) (F : Frame → Prop) (N : Node → Prop) : Prop where
  takeKey : ∀ {f : Frame} {style : Style} {key : String} {p : Position},
    E ⟨p, .scalar style key⟩ → F f → f.hasKey key = false → F (f.takeKey key p)
  takeNode : ∀ {f : Frame} {n : Node}, F f → N n → F (f.takeNode n)
  close : ∀ {f : Frame}, F f → N f.close
  null : ∀ {text : String} {p : Position}, E ⟨p, .scalar .plain text⟩ → isNull text → N (.null p)
  nothing : N (.null {})
  scalar : ∀ {style : Style} {text : String} {p : Position}, E ⟨p, .scalar style text⟩ →
    ¬ (style = .plain ∧ isNull text) → N (.scalar text (style ≠ .plain) p)
  mapping : ∀ {p : Position}, E ⟨p, .mappingStart⟩ → F (.mapping [] p false none)
  list : ∀ {p : Position}, E ⟨p, .sequenceStart⟩ → F (.list [] p)

/-- The open collections and the root of a builder have their properties. -/
structure Holds (F : Frame → Prop) (N : Node → Prop) (b : Builder) : Prop where
  frames : ∀ f ∈ b.stack, F f
  root : ∀ n ∈ b.root, N n

namespace Invariant

variable (h : Invariant E F N) (hb : b.Holds F N)
include h hb

theorem holds_key {style : Style} {key : String} {p : Position} (he : E ⟨p, .scalar style key⟩) :
    (b.key key p).Holds F N := by
  rw [Builder.key]
  split
  · next f fs hstack =>
    obtain ⟨hf, hfs⟩ := List.forall_mem_cons.1 (hstack ▸ hb.frames)
    split
    · exact ⟨hb.frames, hb.root⟩
    · next hkey =>
      have hf' : F (f.takeKey key p) := h.takeKey he hf (by simpa using hkey)
      exact ⟨List.forall_mem_cons.2 ⟨hf', hfs⟩, hb.root⟩
  · exact hb

theorem holds_node {n : Node} (hn : N n) : (b.node n).Holds F N := by
  rw [Builder.node]
  split
  · next f fs hstack =>
    obtain ⟨hf, hfs⟩ := List.forall_mem_cons.1 (hstack ▸ hb.frames)
    exact ⟨List.forall_mem_cons.2 ⟨h.takeNode hf hn, hfs⟩, hb.root⟩
  · exact ⟨hb.frames, by simpa using hn⟩

omit h in
theorem holds_openFrame {f : Frame} (hf : F f) (p : Position) : (b.openFrame f p).Holds F N := by
  rw [Builder.openFrame]
  split
  · exact ⟨hb.frames, hb.root⟩
  · exact ⟨List.forall_mem_cons.2 ⟨hf, hb.frames⟩, hb.root⟩

theorem holds_closeFrame : b.closeFrame.Holds F N := by
  rw [Builder.closeFrame]
  split
  · next f fs hstack =>
    obtain ⟨hf, hfs⟩ := List.forall_mem_cons.1 (hstack ▸ hb.frames)
    have hrest : Holds F N { b with stack := fs } := ⟨hfs, hb.root⟩
    exact h.holds_node hrest (h.close hf)
  · exact hb

theorem holds_scalar {style : Style} {text : String} {p : Position}
    (he : E ⟨p, .scalar style text⟩) : (b.scalar style text p).Holds F N := by
  rw [Builder.scalar]
  split
  · exact h.holds_key hb he
  · split
    · next hnull =>
      obtain ⟨rfl, hnull⟩ := hnull
      exact h.holds_node hb (h.null he hnull)
    · next hnull => exact h.holds_node hb (h.scalar he hnull)

/-- One event keeps the properties. -/
theorem holds_step {e : Event} (he : E e) : (b.step e).Holds F N := by
  obtain ⟨p, kind⟩ := e
  rw [Builder.step]
  split
  · exact hb
  · dsimp only
    split
    · split
      · exact ⟨hb.frames, hb.root⟩
      · exact ⟨hb.frames, hb.root⟩
    · exact h.holds_scalar hb he
    · exact holds_openFrame hb (h.mapping he) p
    · exact holds_openFrame hb (h.list he) p
    · exact h.holds_closeFrame hb
    · exact h.holds_closeFrame hb
    · exact ⟨hb.frames, hb.root⟩
    · exact hb
    · exact hb
    · exact hb

end Invariant

/-- **Any events leave all that is built with its properties.** -/
theorem Invariant.run (h : Invariant E F N) {es : List Event} (hes : ∀ e ∈ es, E e) :
    (Builder.run es).Holds F N := by
  have hfold : ∀ b : Builder, b.Holds F N → (es.foldl Builder.step b).Holds F N := by
    induction es with
    | nil => exact fun b hb => hb
    | cons e es ih =>
      obtain ⟨he, hes⟩ := List.forall_mem_cons.1 hes
      exact fun b hb => ih hes (b.step e) (h.holds_step hb he)
  exact hfold {} ⟨by simp, by simp⟩

end Builder

/-- The root of a document has the property of its nodes. -/
theorem Builder.Invariant.root {E : Event → Prop} {F : Frame → Prop} {N : Node → Prop}
    (h : Builder.Invariant E F N) {es : List Event} {root : Node} (hes : ∀ e ∈ es, E e)
    (hroot : ofEvents es = .ok root) : N root := by
  rw [ofEvents] at hroot
  split at hroot
  · cases hroot
  · cases hroot
    cases hn : (Builder.run es).root with
    | none => exact h.nothing
    | some n => exact (h.run hes).root n hn

end TestScript.Document
