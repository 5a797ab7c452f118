import TestScript.Proofs.Document.Loading
import TestScript.Proofs.Document.Members
import TestScript.Proofs.Yaml.Telling

/-!
# Where the parts of a document stand

Every key and every scalar of a loaded document is one that the reader of YAML has told, at the same
place and with the same text. Lists and mappings stand where they are marked, too: a list begins
there or behind its first dash, an indented mapping begins there with its first key, and an inline
one with a brace or with what stands in front of its first key (`stands_of_load`,
`introduced_of_load`). If the first key of an indented mapping is not written, then the mapping
stands where that is missing, at its colon or at what stands in front of it (`indicated_of_load`).
-/

namespace TestScript.Document

open Builder (isNull)
open Described (DescribesMapping)
open Yaml (Cursor Indicated Introduced StandsAt IsBehindDash Event Style)

variable {origin : Cursor} {es : List Event}

/-! ## Nodes -/

/-- A scalar that is written at all, and not only told in place of one that is missing. -/
def IsWritten (style : Style) (text : String) : Prop :=
  style ≠ .plain ∨ text ≠ ""

/-- What stands at the mark of a list. -/
def ListStands (origin : Cursor) (p : Position) : Prop :=
  StandsAt origin p '[' ∨ StandsAt origin p '-' ∨ IsBehindDash origin p

namespace Node

/-- The keys of a node and its own text are told by events. Where there is no node at all, no event
tells it. -/
def IsToldBy (es : List Event) : Node → Prop
  | .mapping entries _ _ => ∀ e ∈ entries, ∃ style, ⟨e.position, .scalar style e.key⟩ ∈ es
  | .list .. => True
  | .scalar text quoted p =>
    ∃ style, (quoted = true ↔ style ≠ .plain) ∧ IsWritten style text ∧ ⟨p, .scalar style text⟩ ∈ es
  | .null p => p = {} ∨ ∃ text, isNull text ∧ ⟨p, .scalar .plain text⟩ ∈ es

/-- What stands at the mark of a collection. -/
def Stands (origin : Cursor) : Node → Prop
  | .mapping entries p flow => flow = false → ∀ e ∈ entries.head?, e.position = p
  | .list _ p => ListStands origin p
  | .scalar .. | .null _ => True

/-- All parts of a node stand where they are marked, and all their texts are told. -/
def AllStand (origin : Cursor) (es : List Event) (root : Node) : Prop :=
  ∀ n : Node, n.IsPart root → n.IsToldBy es ∧ n.Stands origin

theorem allStand_mapping {entries : List (Entry Node)} {p : Position} {flow : Bool}
    (hkeys : ∀ e ∈ entries, ∃ style, ⟨e.position, .scalar style e.key⟩ ∈ es)
    (hfirst : flow = false → ∀ e ∈ entries.head?, e.position = p)
    (hvalues : ∀ e ∈ entries, e.value.AllStand origin es) :
    (Node.mapping entries p flow).AllStand origin es := by
  intro n hn
  cases hn with
  | self => exact ⟨hkeys, hfirst⟩
  | entry he hn => exact hvalues _ he n hn

theorem allStand_list {items : List Node} {p : Position} (hp : ListStands origin p)
    (hitems : ∀ item ∈ items, item.AllStand origin es) :
    (Node.list items p).AllStand origin es := by
  intro n hn
  cases hn with
  | self => exact ⟨trivial, hp⟩
  | item hitem hn => exact hitems _ hitem n hn

theorem allStand_scalar {text : String} {p : Position} {style : Style}
    (hnull : ¬ (style = .plain ∧ isNull text)) (h : ⟨p, .scalar style text⟩ ∈ es) :
    (Node.scalar text (style ≠ .plain) p).AllStand origin es := by
  rintro n ⟨⟩
  refine ⟨⟨style, by simp, ?_, h⟩, trivial⟩
  by_contra hmissing
  obtain ⟨rfl, rfl⟩ : style = .plain ∧ text = "" := by simpa [IsWritten] using hmissing
  exact hnull ⟨rfl, rfl⟩

theorem allStand_null {p : Position}
    (h : p = {} ∨ ∃ text, isNull text ∧ ⟨p, .scalar .plain text⟩ ∈ es) :
    (Node.null p).AllStand origin es := by
  rintro n ⟨⟩
  exact ⟨h, trivial⟩

end Node

/-! ## Open collections -/

namespace Frame

/-- What has been read of a mapping stands where it is marked. -/
structure MappingStands (origin : Cursor) (es : List Event) (entries : List (Entry Node))
    (p : Position) (flow : Bool) (pending : Option (String × Position)) : Prop where
  keys : ∀ e ∈ entries, ∃ style, ⟨e.position, .scalar style e.key⟩ ∈ es
  values : ∀ e ∈ entries, e.value.AllStand origin es
  first : flow = false → ∀ e ∈ entries.head?, e.position = p
  waits : ∀ k ∈ pending, ∃ style, ⟨k.2, .scalar style k.1⟩ ∈ es
  waitsFirst : flow = false → entries = [] → ∀ k ∈ pending, k.2 = p

/-- What has been read of a collection stands where it is marked. -/
def Stands (origin : Cursor) (es : List Event) : Frame → Prop
  | .mapping entries p flow pending => MappingStands origin es entries p flow pending
  | .list items p => ListStands origin p ∧ ∀ item ∈ items, item.AllStand origin es

variable {f : Frame}

/-- A mapping takes the place of a first key that is not behind its mark. -/
theorem Stands.takeKey (h : f.Stands origin es) {style : Style} {key : String} {p : Position}
    (hkey : ⟨p, .scalar style key⟩ ∈ es) : (f.takeKey key p).Stands origin es := by
  have hpending : ∀ k ∈ some (key, p), ∃ style, ⟨k.2, .scalar style k.1⟩ ∈ es := by
    rintro _ ⟨⟩
    exact ⟨style, hkey⟩
  cases f with
  | list items start => exact h
  | mapping entries start flow pending =>
    have hm : MappingStands origin es entries start flow pending := h
    cases entries with
    | nil =>
      rw [Frame.takeKey]
      split
      · refine ⟨hm.keys, hm.values, by simp, hpending, ?_⟩
        rintro - - _ ⟨⟩
        rfl
      · exact ⟨hm.keys, hm.values, by simp, hpending, by simp⟩
    | cons e entries => exact ⟨hm.keys, hm.values, hm.first, hpending, by simp⟩

theorem Stands.takeNode (h : f.Stands origin es) {n : Node} (hn : n.AllStand origin es) :
    (f.takeNode n).Stands origin es := by
  cases f with
  | list items start =>
    exact ⟨h.1, List.forall_mem_append.2 ⟨h.2, List.forall_mem_singleton.2 hn⟩⟩
  | mapping entries start flow pending =>
    have hm : MappingStands origin es entries start flow pending := h
    cases pending with
    | none => exact hm
    | some k =>
      refine ⟨List.forall_mem_append.2 ⟨hm.keys, List.forall_mem_singleton.2 (hm.waits k rfl)⟩,
        List.forall_mem_append.2 ⟨hm.values, List.forall_mem_singleton.2 hn⟩, ?_, nofun, nofun⟩
      intro hflow e he
      cases entries with
      | nil =>
        cases he
        exact hm.waitsFirst hflow rfl k rfl
      | cons e' entries => exact hm.first hflow e he

theorem Stands.close (h : f.Stands origin es) : f.close.AllStand origin es := by
  cases f with
  | list items start => exact Node.allStand_list h.1 h.2
  | mapping entries start flow pending =>
    have hm : MappingStands origin es entries start flow pending := h
    exact Node.allStand_mapping hm.keys hm.first hm.values

end Frame

/-! ## Loaded documents -/

/-- The builder keeps all in its place, if the events are marked. -/
theorem invariant_stands (hes : ∀ e ∈ es, e.IsMarked origin) :
    Builder.Invariant (· ∈ es) (Frame.Stands origin es) (Node.AllStand origin es) where
  takeKey he h _ := h.takeKey he
  takeNode h hn := h.takeNode hn
  close := Frame.Stands.close
  null he hnull := Node.allStand_null (.inr ⟨_, hnull, he⟩)
  nothing := Node.allStand_null (.inl rfl)
  scalar he hnull := Node.allStand_scalar hnull he
  mapping _ := ⟨nofun, nofun, nofun, nofun, nofun⟩
  list he := ⟨hes _ he, nofun⟩

/-- **Every part of a loaded document stands where it is marked, and every text is told.** -/
theorem stands_of_load {text : String} {root n : Node} (hes : Event.ofText text = .ok es)
    (h : load text = .ok root) (hn : n.IsPart root) :
    n.IsToldBy es ∧ n.Stands (Cursor.ofText text) := by
  have hmarked := Event.isMarked_of_ofText hes
  rw [load_of_events hes] at h
  exact (invariant_stands hmarked).root (fun _ he => he) h n hn

/-- The events of a document are among those of its stream. -/
theorem mem_events_of_mem {s : DescribedStream} {d : DescribedDocument} (hd : d ∈ s.documents)
    {e : Event} (he : e ∈ d.root.events) : e ∈ s.events := by
  refine List.mem_cons_of_mem _ (List.mem_append_left _ (List.mem_flatMap.2 ⟨d, hd, ?_⟩))
  exact List.mem_append_left _ (List.mem_cons_of_mem _ he)

/-- Each mapping of a loaded document is described by one that is introduced, or begins with its
first key. -/
theorem describesMapping_of_load {text : String} {root : Node} {entries : List (Entry Node)}
    {p : Position} {flow : Bool} (hes : Event.ofText text = .ok es) (h : load text = .ok root)
    (hn : (Node.mapping entries p flow).IsPart root) :
    DescribesMapping (Introduced (Cursor.ofText text)) (Indicated (Cursor.ofText text)) es
      entries p flow := by
  obtain ⟨s, rfl, hopened⟩ := Yaml.exists_stream_of_ofText hes
  rw [load_of_events hes] at h
  rcases root_of_ofEvents_stream h with ⟨-, rfl⟩ | ⟨d, hd, htree, rfl⟩
  · cases hn
  · have hmem : d ∈ s.documents := hd ▸ List.mem_cons_self
    exact ((hopened d hmem).of_isPart htree hn).mono fun _ => mem_events_of_mem hmem

/-- **Every inline mapping of a loaded document is introduced, and so is every empty one.** -/
theorem introduced_of_load {text : String} {root : Node} {entries : List (Entry Node)}
    {p : Position} {flow : Bool} (hes : Event.ofText text = .ok es) (h : load text = .ok root)
    (hn : (Node.mapping entries p flow).IsPart root) (hflow : flow = true ∨ entries = []) :
    Introduced (Cursor.ofText text) p :=
  (describesMapping_of_load hes h hn).introduced hflow

/-- **An indented mapping whose first key is not written stands where that is missing.** -/
theorem indicated_of_load {text : String} {root : Node} {e : Entry Node}
    {entries : List (Entry Node)} {p : Position} (hes : Event.ofText text = .ok es)
    (h : load text = .ok root) (hn : (Node.mapping (e :: entries) p false).IsPart root)
    (hmissing : ∀ style, ⟨e.position, .scalar style e.key⟩ ∈ es → ¬ IsWritten style e.key) :
    Indicated (Cursor.ofText text) p := by
  have hplain : ∀ style, ⟨e.position, .scalar style e.key⟩ ∈ es → style = .plain ∧ e.key = "" :=
    fun style he => by simpa [IsWritten] using hmissing style he
  obtain ⟨style, he⟩ := (stands_of_load hes h hn).1 e List.mem_cons_self
  exact (describesMapping_of_load hes h hn).missing (hplain style he).2
    fun style he => (hplain style he).1

end TestScript.Document
