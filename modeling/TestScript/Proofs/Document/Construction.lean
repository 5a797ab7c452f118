import TestScript.Document.Builder

/-!
# The tree that a stream describes

The events of a stream nest: a collection is what lies between its start and its end, and in a
mapping keys and values take turns. `Described` is a node as its events tell it. If it has no
alias, its keys are scalars and no mapping has a key twice, then it is a tree, and the builder
comes to that tree and to nothing else (`run_eq_of_isTree`).

The builder only ever looks at its innermost frame. So the events of a node do to any builder
that does not wait for a key what the finished node does (`foldl_step_events`), whatever lies
open around it.
-/

namespace TestScript.Document

open Yaml (Event Style)

/-- A node as events tell it. The positions of a collection are those of its start and of its
end. -/
inductive Described where
  | alias (position : Position)
  | scalar (style : Style) (text : String) (position : Position)
  | sequence (start : Position) (items : List Described) (stop : Position)
  | mapping (start : Position) (entries : List (Described × Described)) (stop : Position)

namespace Described

/-! ## Events -/

mutual

/-- The events of a node. -/
def events : Described → List Event
  | .alias p => [⟨p, .alias⟩]
  | .scalar style text p => [⟨p, .scalar style text⟩]
  | .sequence start items stop =>
    ⟨start, .sequenceStart⟩ :: itemEvents items ++ [⟨stop, .sequenceEnd⟩]
  | .mapping start entries stop =>
    ⟨start, .mappingStart⟩ :: entryEvents entries ++ [⟨stop, .mappingEnd⟩]

/-- The events of nodes in a row. -/
def itemEvents : List Described → List Event
  | [] => []
  | item :: items => item.events ++ itemEvents items

/-- The events of keys and values that take turns. -/
def entryEvents : List (Described × Described) → List Event
  | [] => []
  | (key, value) :: entries => key.events ++ value.events ++ entryEvents entries

end

/-- The events of a stream with one document. -/
def IsStream (d : Described) (es : List Event) : Prop :=
  ∃ streamStart documentStart documentEnd streamEnd,
    es = ⟨streamStart, .streamStart⟩ :: ⟨documentStart, .documentStart⟩ :: d.events ++
      [⟨documentEnd, .documentEnd⟩, ⟨streamEnd, .streamEnd⟩]

/-! ## Trees -/

/-- The text of a key and its place; no text if it is no scalar. -/
def key : Described → String × Position
  | .scalar _ text p => (text, p)
  | .alias p | .sequence p _ _ | .mapping p _ _ => ("", p)

/-- Whether a node is a scalar. -/
def IsScalar : Described → Prop
  | .scalar .. => True
  | .alias _ | .sequence .. | .mapping .. => False

/-- The texts of the keys of a mapping. -/
def keyTexts (entries : List (Described × Described)) : List String :=
  entries.map fun entry => entry.1.key.1

mutual

/-- There is no alias, every key is a scalar, and no mapping has two keys with the same text. -/
def IsTree : Described → Prop
  | .alias _ => False
  | .scalar .. => True
  | .sequence _ items _ => ItemsAreTrees items
  | .mapping _ entries _ => (keyTexts entries).Nodup ∧ EntriesAreTrees entries

def ItemsAreTrees : List Described → Prop
  | [] => True
  | item :: items => item.IsTree ∧ ItemsAreTrees items

def EntriesAreTrees : List (Described × Described) → Prop
  | [] => True
  | (key, value) :: entries => key.IsScalar ∧ value.IsTree ∧ EntriesAreTrees entries

end

/-- A scalar that is no key: nothing, if it is a plain word for it. -/
def scalarTree (style : Style) (text : String) (p : Position) : Node :=
  if style = .plain ∧ text ∈ ["", "~", "null", "Null", "NULL"] then .null p
  else .scalar text (style ≠ .plain) p

/-- Where a mapping begins, and whether it is written inline: at its first key, unless that stands
behind the mark of the mapping, as it does behind a brace. -/
def mappingPlace (start : Position) : List (Entry Node) → Position × Bool
  | [] => (start, false)
  | e :: _ => if e.position ≤ start then (e.position, false) else (start, true)

mutual

/-- The tree that a node describes, if it is a tree. -/
def tree : Described → Node
  | .alias p => .null p
  | .scalar style text p => scalarTree style text p
  | .sequence start items _ => .list (itemTrees items) start
  | .mapping start entries _ =>
    .mapping (entryTrees entries) (mappingPlace start (entryTrees entries)).1
      (mappingPlace start (entryTrees entries)).2

def itemTrees : List Described → List Node
  | [] => []
  | item :: items => item.tree :: itemTrees items

def entryTrees : List (Described × Described) → List (Entry Node)
  | [] => []
  | (key, value) :: entries => ⟨key.key.1, key.key.2, value.tree⟩ :: entryTrees entries

end

end Described

open Described

/-! ## One event

What an event does to a builder that has not refused the stream. -/

namespace Builder

/-- The builder with these collections open. -/
def withStack (b : Builder) (stack : List Frame) : Builder :=
  { b with stack }

variable {b : Builder} {f : Frame} {fs : List Frame}

@[simp] theorem withStack_stack : b.withStack b.stack = b :=
  rfl

@[simp] theorem refusal_withStack : (b.withStack fs).refusal = b.refusal :=
  rfl

@[simp] theorem awaitsKey_withStack : (b.withStack (f :: fs)).awaitsKey = f.awaitsKey :=
  rfl

theorem node_withStack (n : Node) :
    (b.withStack (f :: fs)).node n = b.withStack (f.takeNode n :: fs) :=
  rfl

theorem closeFrame_withStack : (b.withStack (f :: fs)).closeFrame = (b.withStack fs).node f.close :=
  rfl

theorem key_withStack {key : String} {p : Position} (h : f.hasKey key = false) :
    (b.withStack (f :: fs)).key key p = b.withStack (f.takeKey key p :: fs) := by
  simp [Builder.key, withStack, h]

theorem isNull_iff {text : String} :
    isNull text = true ↔ text ∈ ["", "~", "null", "Null", "NULL"] := by
  simp [isNull, or_assoc]

theorem step_scalar (hb : b.refusal = none) (hkey : b.awaitsKey = false) (style : Style)
    (text : String) (p : Position) :
    b.step ⟨p, .scalar style text⟩ = b.node (scalarTree style text p) := by
  simp only [step, hb, Option.isSome_none, Bool.false_eq_true, if_false, scalar, hkey, isNull_iff,
    scalarTree]
  split <;> rfl

theorem step_key (hb : b.refusal = none) (hkey : b.awaitsKey = true) (style : Style)
    (text : String) (p : Position) :
    b.step ⟨p, .scalar style text⟩ = b.key text p := by
  simp [step, hb, scalar, hkey]

theorem step_sequenceStart (hb : b.refusal = none) (hkey : b.awaitsKey = false) (p : Position) :
    b.step ⟨p, .sequenceStart⟩ = b.withStack (.list [] p :: b.stack) := by
  simp [step, hb, openFrame, hkey, withStack]

theorem step_mappingStart (hb : b.refusal = none) (hkey : b.awaitsKey = false) (p : Position) :
    b.step ⟨p, .mappingStart⟩ = b.withStack (.mapping [] p false none :: b.stack) := by
  simp [step, hb, openFrame, hkey, withStack]

theorem step_sequenceEnd (hb : b.refusal = none) (p : Position) :
    b.step ⟨p, .sequenceEnd⟩ = b.closeFrame := by
  simp [step, hb]

theorem step_mappingEnd (hb : b.refusal = none) (p : Position) :
    b.step ⟨p, .mappingEnd⟩ = b.closeFrame := by
  simp [step, hb]

end Builder

/-! ## Mappings under construction -/

/-- A mapping with some entries that waits for its next key. -/
def Frame.ofEntries (start : Position) (entries : List (Entry Node)) : Frame :=
  .mapping entries (mappingPlace start entries).1 (mappingPlace start entries).2 none

/-- A key and its value make one more entry. Only the first of them tells where the mapping
begins. -/
theorem Frame.takeNode_takeKey_ofEntries (start : Position) (entries : List (Entry Node))
    (key : String) (p : Position) (value : Node) :
    ((ofEntries start entries).takeKey key p).takeNode value =
      ofEntries start (entries ++ [⟨key, p, value⟩]) := by
  cases entries with
  | nil =>
    simp only [ofEntries, takeKey, mappingPlace, List.nil_append]
    split <;> rfl
  | cons e entries => rfl

theorem Frame.awaitsKey_takeKey_ofEntries (start : Position) (entries : List (Entry Node))
    (key : String) (p : Position) :
    ((ofEntries start entries).takeKey key p).awaitsKey = false := by
  cases entries with
  | nil =>
    simp only [ofEntries, takeKey]
    split <;> rfl
  | cons e entries => rfl

namespace Builder

variable {b : Builder}

/-- The key of an entry is taken if the mapping does not have it yet. -/
theorem foldl_step_key (hb : b.refusal = none) (start : Position) {done : List (Entry Node)}
    (fs : List Frame) {key : Described} (hscalar : key.IsScalar)
    (hnew : key.key.1 ∉ done.map Entry.key) :
    key.events.foldl step (b.withStack (.ofEntries start done :: fs)) =
      b.withStack ((Frame.ofEntries start done).takeKey key.key.1 key.key.2 :: fs) := by
  cases key with
  | scalar style text p =>
    have hkey : (Frame.ofEntries start done).hasKey text = false := by
      show done.any (·.key = text) = false
      rw [List.any_eq_false]
      intro e he heq
      exact hnew (List.mem_map.2 ⟨e, he, of_decide_eq_true heq⟩)
    show step _ ⟨p, .scalar style text⟩ = _
    rw [step_key (refusal_withStack.trans hb) rfl, key_withStack hkey]
    rfl
  | _ => exact hscalar.elim

/-! ## Whole nodes -/

mutual

/-- The events of a tree do what the tree does as a whole. -/
theorem foldl_step_events : (d : Described) → d.IsTree → (b : Builder) → b.refusal = none →
    b.awaitsKey = false → d.events.foldl step b = b.node d.tree
  | .scalar style text p, _, b, hb, hkey => step_scalar hb hkey style text p
  | .sequence start items stop, h, b, hb, hkey => by
    rw [events, List.cons_append, List.foldl_cons, List.foldl_append, step_sequenceStart hb hkey,
      foldl_step_itemEvents items h b hb, List.foldl_cons,
      step_sequenceEnd (refusal_withStack.trans hb), closeFrame_withStack]
    rfl
  | .mapping start entries stop, h, b, hb, hkey => by
    have hempty : Frame.mapping [] start false none = .ofEntries start [] := rfl
    rw [events, List.cons_append, List.foldl_cons, List.foldl_append, step_mappingStart hb hkey,
      hempty, foldl_step_entryEvents entries h.2 b hb start [] b.stack (by simpa using h.1),
      List.foldl_cons, step_mappingEnd (refusal_withStack.trans hb), closeFrame_withStack]
    rfl

/-- The events of items put their trees into the list that is open. -/
theorem foldl_step_itemEvents : (items : List Described) → ItemsAreTrees items → (b : Builder) →
    b.refusal = none → (start : Position) → (done : List Node) → (fs : List Frame) →
    (itemEvents items).foldl step (b.withStack (.list done start :: fs)) =
      b.withStack (.list (done ++ itemTrees items) start :: fs)
  | [], _, b, _, start, done, fs => by
    rw [itemEvents, List.foldl_nil, itemTrees, List.append_nil]
  | item :: items, h, b, hb, start, done, fs => by
    rw [itemEvents, List.foldl_append,
      foldl_step_events item h.1 _ (refusal_withStack.trans hb) rfl, node_withStack,
      Frame.takeNode, foldl_step_itemEvents items h.2 b hb, itemTrees, List.append_assoc,
      List.singleton_append]

/-- The events of entries put them into the mapping that is open. -/
theorem foldl_step_entryEvents : (entries : List (Described × Described)) →
    EntriesAreTrees entries → (b : Builder) → b.refusal = none → (start : Position) →
    (done : List (Entry Node)) → (fs : List Frame) →
    (done.map Entry.key ++ keyTexts entries).Nodup →
    (entryEvents entries).foldl step (b.withStack (.ofEntries start done :: fs)) =
      b.withStack (.ofEntries start (done ++ entryTrees entries) :: fs)
  | [], _, b, _, start, done, fs, _ => by
    rw [entryEvents, List.foldl_nil, entryTrees, List.append_nil]
  | (key, value) :: entries, h, b, hb, start, done, fs, hnodup => by
    obtain ⟨hscalar, hvalue, hentries⟩ := h
    have hnew : key.key.1 ∉ done.map Entry.key := by
      intro hmem
      exact (List.nodup_append.1 hnodup).2.2 _ hmem _ List.mem_cons_self rfl
    -- The key waits for its value; both together are the next entry.
    rw [entryEvents, List.append_assoc, List.foldl_append, List.foldl_append,
      foldl_step_key hb start fs hscalar hnew,
      foldl_step_events value hvalue _ (refusal_withStack.trans hb)
        (awaitsKey_withStack.trans (Frame.awaitsKey_takeKey_ofEntries ..)),
      node_withStack,
      Frame.takeNode_takeKey_ofEntries,
      foldl_step_entryEvents entries hentries b hb start _ fs (by simpa [keyTexts] using hnodup),
      entryTrees, List.append_assoc, List.singleton_append]

end

end Builder

/-- **The builder comes to the tree that a stream describes.** Nothing is refused, and nothing is
left open. -/
theorem run_eq_of_isTree {d : Described} {es : List Event} (hstream : d.IsStream es)
    (htree : d.IsTree) :
    Builder.run es = { stack := [], root := some d.tree, documents := 1, refusal := none } := by
  obtain ⟨p, q, r, s, rfl⟩ := hstream
  have hnode := Builder.foldl_step_events d htree { documents := 1 } rfl rfl
  rw [Builder.run, List.cons_append, List.foldl_cons, List.cons_append, List.foldl_cons,
    List.foldl_append]
  have hstart : (({} : Builder).step ⟨p, .streamStart⟩).step ⟨q, .documentStart⟩ =
      { documents := 1 } := rfl
  rw [hstart, hnode]
  rfl

/-- An indented mapping that is marked at its first colon, with the key `null`, an inline mapping
behind it, a list with a word for nothing and the same word in quotes, and a key that the mapping
around it has, too. -/
theorem run_nested_eq :
    Builder.run
      [⟨⟨0, 0⟩, .streamStart⟩, ⟨⟨0, 0⟩, .documentStart⟩,
        ⟨⟨0, 4⟩, .mappingStart⟩,
        ⟨⟨0, 0⟩, .scalar .plain "null"⟩,
        ⟨⟨0, 6⟩, .mappingStart⟩,
        ⟨⟨0, 7⟩, .scalar .plain "a"⟩, ⟨⟨0, 10⟩, .mappingStart⟩, ⟨⟨0, 11⟩, .mappingEnd⟩,
        ⟨⟨0, 12⟩, .mappingEnd⟩,
        ⟨⟨1, 0⟩, .scalar .singleQuoted "a"⟩,
        ⟨⟨2, 2⟩, .sequenceStart⟩,
        ⟨⟨2, 4⟩, .scalar .plain "~"⟩, ⟨⟨3, 4⟩, .scalar .doubleQuoted "~"⟩,
        ⟨⟨4, 0⟩, .sequenceEnd⟩,
        ⟨⟨4, 0⟩, .mappingEnd⟩,
        ⟨⟨4, 0⟩, .documentEnd⟩, ⟨⟨4, 0⟩, .streamEnd⟩] =
      { stack := []
        root := some (.mapping
          [⟨"null", ⟨0, 0⟩, .mapping [⟨"a", ⟨0, 7⟩, .mapping [] ⟨0, 10⟩ false⟩] ⟨0, 6⟩ true⟩,
            ⟨"a", ⟨1, 0⟩, .list [.null ⟨2, 4⟩, .scalar "~" true ⟨3, 4⟩] ⟨2, 2⟩⟩]
          ⟨0, 0⟩ false)
        documents := 1
        refusal := none } :=
  run_eq_of_isTree
    (d := .mapping ⟨0, 4⟩
      [(.scalar .plain "null" ⟨0, 0⟩,
          .mapping ⟨0, 6⟩
            [(.scalar .plain "a" ⟨0, 7⟩, .mapping ⟨0, 10⟩ [] ⟨0, 11⟩)]
            ⟨0, 12⟩),
        (.scalar .singleQuoted "a" ⟨1, 0⟩,
          .sequence ⟨2, 2⟩
            [.scalar .plain "~" ⟨2, 4⟩, .scalar .doubleQuoted "~" ⟨3, 4⟩]
            ⟨4, 0⟩)]
      ⟨4, 0⟩)
    ⟨⟨0, 0⟩, ⟨0, 0⟩, ⟨4, 0⟩, ⟨4, 0⟩, rfl⟩
    (by simp [IsTree, EntriesAreTrees, ItemsAreTrees, keyTexts, Described.key, IsScalar])

end TestScript.Document
