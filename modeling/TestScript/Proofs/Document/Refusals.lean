import TestScript.Proofs.Document.Construction
import TestScript.Proofs.FirstFault

/-!
# Why a stream is refused

A stream with a second document, an alias, a key that is no scalar, or a key that its mapping has
already is no document. Which event is to blame is said here from the way the events nest, in
reading order and without a builder (`Described.judged`). The builder refuses the stream for the
first of these events, and from then on nothing changes any more (`refusesEarliest`).

The builder does not see how the events nest. It keeps to the judgement because what it waits for
is what comes next: as long as nothing has been refused, the events of a node have done to it what
the finished node does.
-/

namespace TestScript.Document

open Yaml (Event)

/-- An event, and why it is refused if it is. -/
abbrev Judged := Event × Option Refusal

/-- None of some events is refused. -/
def NoneRefused (xs : List Judged) : Prop :=
  ∀ x ∈ xs, x.2 = none

theorem noneRefused_cons {x : Judged} {xs : List Judged} :
    NoneRefused (x :: xs) ↔ x.2 = none ∧ NoneRefused xs :=
  List.forall_mem_cons

theorem noneRefused_append {xs ys : List Judged} :
    NoneRefused (xs ++ ys) ↔ NoneRefused xs ∧ NoneRefused ys :=
  List.forall_mem_append

/-- Unless none of some events is refused, there is a first one that is. -/
theorem exists_first_of_not_noneRefused {xs : List Judged} (h : ¬ NoneRefused xs) :
    ∃ before e why after, xs = before ++ (e, some why) :: after ∧ NoneRefused before := by
  have hsome : ∃ x ∈ xs, ∃ why, x.2 = some why := by
    refine Classical.byContradiction fun hnone => h fun x hx => ?_
    exact Option.eq_none_iff_forall_ne_some.2 fun why hwhy => hnone ⟨x, hx, why, hwhy⟩
  obtain ⟨why, before, ⟨e, _⟩, after, hxs, hbefore, rfl⟩ := exists_firstFault_iff.2 hsome
  exact ⟨before, e, why, after, hxs,
    fun y hy => Option.eq_none_iff_forall_ne_some.2 fun why' => hbefore y hy why'⟩

/-! ## What is refused -/

/-- Where a node stands: as a key behind others of its mapping, with these texts, or not as a key.
-/
inductive Place where
  | key (taken : List String)
  | node

/-- Why a scalar is refused at a place, if it is. -/
def Place.refusesScalar (text : String) : Place → Option Refusal
  | .key taken => if text ∈ taken then some (.duplicateKey text) else none
  | .node => none

/-- Why a collection is refused at a place, if it is. -/
def Place.refusesCollection : Place → Option Refusal
  | .key _ => some .keyNotScalar
  | .node => none

namespace Described

/-- The text of a scalar. -/
def text? : Described → Option String
  | .scalar _ text _ => some text
  | .alias _ | .sequence .. | .mapping .. => none

mutual

/-- The events of a node at a place, and which of them are refused. -/
def judged (place : Place) : Described → List Judged
  | .alias p => [(⟨p, .alias⟩, some .alias)]
  | .scalar style text p => [(⟨p, .scalar style text⟩, place.refusesScalar text)]
  | .sequence start items stop =>
    (⟨start, .sequenceStart⟩, place.refusesCollection) :: judgedItems items ++
      [(⟨stop, .sequenceEnd⟩, none)]
  | .mapping start entries stop =>
    (⟨start, .mappingStart⟩, place.refusesCollection) :: judgedEntries [] entries ++
      [(⟨stop, .mappingEnd⟩, none)]

/-- The events of nodes in a row. -/
def judgedItems : List Described → List Judged
  | [] => []
  | item :: items => item.judged .node ++ judgedItems items

/-- The events of keys and values that take turns, behind keys with some texts. -/
def judgedEntries (taken : List String) : List (Described × Described) → List Judged
  | [] => []
  | (key, value) :: entries =>
    key.judged (.key taken) ++ value.judged .node ++
      judgedEntries (taken ++ key.text?.toList) entries

end

mutual

theorem map_fst_judged (place : Place) : (d : Described) → (d.judged place).map Prod.fst = d.events
  | .alias p | .scalar style text p => by rw [judged, events, List.map_singleton]
  | .sequence start items stop => by
    simp [judged, events, map_fst_judgedItems items]
  | .mapping start entries stop => by
    simp [judged, events, map_fst_judgedEntries [] entries]

theorem map_fst_judgedItems :
    (items : List Described) → (judgedItems items).map Prod.fst = itemEvents items
  | [] => rfl
  | item :: items => by
    rw [judgedItems, itemEvents, List.map_append, map_fst_judged .node item,
      map_fst_judgedItems items]

theorem map_fst_judgedEntries (taken : List String) : (entries : List (Described × Described)) →
    (judgedEntries taken entries).map Prod.fst = entryEvents entries
  | [] => rfl
  | (key, value) :: entries => by
    rw [judgedEntries, entryEvents, List.map_append, List.map_append,
      map_fst_judged (.key taken) key, map_fst_judged .node value,
      map_fst_judgedEntries _ entries]

end

/-! ## Nodes in which nothing is refused -/

/-- A key that is not refused is a scalar with a new text. -/
theorem isScalar_of_noneRefused {taken : List String} :
    {key : Described} → NoneRefused (key.judged (.key taken)) →
      key.IsScalar ∧ key.key.1 ∉ taken ∧ key.text?.toList = [key.key.1]
  | .scalar style text p, h => by
    have hnew := h _ List.mem_cons_self
    simp only [Place.refusesScalar, ite_eq_right_iff, reduceCtorEq, imp_false] at hnew
    exact ⟨trivial, hnew, rfl⟩
  | .alias _, h | .sequence .., h | .mapping .., h => by cases h _ List.mem_cons_self

mutual

/-- A node in which nothing is refused is a tree. -/
theorem isTree_of_noneRefused :
    (d : Described) → NoneRefused (d.judged .node) → d.IsTree
  | .alias p, h => by cases h _ List.mem_cons_self
  | .scalar style text p, h => trivial
  | .sequence start items stop, h => by
    rw [judged, List.cons_append, noneRefused_cons, noneRefused_append] at h
    exact itemsAreTrees_of_noneRefused items h.2.1
  | .mapping start entries stop, h => by
    rw [judged, List.cons_append, noneRefused_cons, noneRefused_append] at h
    exact entriesAreTrees_of_noneRefused entries [] List.nodup_nil h.2.1

theorem itemsAreTrees_of_noneRefused :
    (items : List Described) → NoneRefused (judgedItems items) → ItemsAreTrees items
  | [], h => trivial
  | item :: items, h => by
    rw [judgedItems, noneRefused_append] at h
    exact ⟨isTree_of_noneRefused item h.1, itemsAreTrees_of_noneRefused items h.2⟩

theorem entriesAreTrees_of_noneRefused :
    (entries : List (Described × Described)) → (taken : List String) → taken.Nodup →
      NoneRefused (judgedEntries taken entries) →
        (taken ++ keyTexts entries).Nodup ∧ EntriesAreTrees entries
  | [], taken, htaken, h => by simpa [keyTexts, EntriesAreTrees] using htaken
  | (key, value) :: entries, taken, htaken, h => by
    rw [judgedEntries, noneRefused_append, noneRefused_append] at h
    obtain ⟨⟨hkey, hvalue⟩, hrest⟩ := h
    obtain ⟨hscalar, hnew, htext⟩ := isScalar_of_noneRefused hkey
    rw [htext] at hrest
    obtain ⟨hnodup, hentries⟩ := entriesAreTrees_of_noneRefused entries _
      (List.nodup_append.2 ⟨htaken, by simp, by simpa using fun t ht => ne_of_mem_of_not_mem ht hnew⟩)
      hrest
    exact ⟨by simpa [keyTexts] using hnodup, hscalar, isTree_of_noneRefused value hvalue, hentries⟩

end

end Described

/-! ## Streams -/

/-- A document of a stream: its marks, and its node between them. -/
structure DescribedDocument where
  start : Position
  root : Described
  stop : Position

/-- A stream of any number of documents, between its marks. -/
structure DescribedStream where
  start : Position
  documents : List DescribedDocument
  stop : Position

/-- The events of a document. -/
def DescribedDocument.events (d : DescribedDocument) : List Event :=
  ⟨d.start, .documentStart⟩ :: d.root.events ++ [⟨d.stop, .documentEnd⟩]

/-- The events of a document, which as a whole is refused for some reason or for none. -/
def DescribedDocument.judged (why : Option Refusal) (d : DescribedDocument) : List Judged :=
  (⟨d.start, .documentStart⟩, why) :: d.root.judged .node ++ [(⟨d.stop, .documentEnd⟩, none)]

/-- The events of documents. The first one is refused for some reason or for none, and every one
behind it because it is not the first. -/
def judgedDocuments : Option Refusal → List DescribedDocument → List Judged
  | _, [] => []
  | why, d :: ds => d.judged why ++ judgedDocuments (some .secondDocument) ds

namespace DescribedStream

/-- The events of a stream. -/
def events (s : DescribedStream) : List Event :=
  ⟨s.start, .streamStart⟩ :: s.documents.flatMap DescribedDocument.events ++
    [⟨s.stop, .streamEnd⟩]

/-- The events of a stream, and which of them are refused. -/
def judged (s : DescribedStream) : List Judged :=
  (⟨s.start, .streamStart⟩, none) :: judgedDocuments none s.documents ++
    [(⟨s.stop, .streamEnd⟩, none)]

end DescribedStream

theorem map_fst_judgedDocuments (why : Option Refusal) (ds : List DescribedDocument) :
    (judgedDocuments why ds).map Prod.fst = ds.flatMap DescribedDocument.events := by
  induction ds generalizing why with
  | nil => rfl
  | cons d ds ih =>
    rw [judgedDocuments, List.map_append, ih, List.flatMap_cons]
    simp [DescribedDocument.judged, DescribedDocument.events, Described.map_fst_judged]

theorem DescribedStream.map_fst_judged (s : DescribedStream) :
    s.judged.map Prod.fst = s.events := by
  simp [DescribedStream.judged, events, map_fst_judgedDocuments]

/-! ## The builder keeps to the judgement -/

namespace Builder

/-- What a builder is after an event has been refused: it says so, and is no different otherwise. -/
structure Refused (b : Builder) (why : Refusal) (p : Position) (b' : Builder) : Prop where
  refusal_eq : b'.refusal = some (why, p)
  stack_eq : b'.stack = b.stack
  root_eq : b'.root = b.root

/-- Of some events a builder takes those in front of the first one that is refused, and that one it
refuses. -/
def KeepsTo : Builder → List Judged → Prop
  | b, [] => b.refusal = none
  | b, (e, none) :: xs => (b.step e).KeepsTo xs
  | b, (e, some why) :: _ => b.refusal = none ∧ b.Refused why e.position (b.step e)

variable {b : Builder}

/-- What comes later matters only if nothing has been refused. -/
theorem KeepsTo.append {xs ys : List Judged} (hxs : b.KeepsTo xs)
    (hys : NoneRefused xs → ((xs.map Prod.fst).foldl step b).KeepsTo ys) :
    b.KeepsTo (xs ++ ys) := by
  induction xs generalizing b with
  | nil => exact hys (by simp [NoneRefused])
  | cons x xs ih =>
    obtain ⟨e, _ | why⟩ := x
    · exact ih hxs fun h => hys (noneRefused_cons.2 ⟨rfl, h⟩)
    · exact hxs

theorem keepsTo_none {e : Event} (h : (b.step e).refusal = none) : b.KeepsTo [(e, none)] :=
  h

theorem keepsTo_some {e : Event} {why : Refusal} {xs : List Judged} (hb : b.refusal = none)
    (hstep : b.step e = b.refuse why e.position) : b.KeepsTo ((e, some why) :: xs) := by
  refine ⟨hb, ?_⟩
  rw [hstep]
  exact ⟨rfl, rfl, rfl⟩

/-- If nothing is refused, all events are taken. -/
theorem KeepsTo.refusal_foldl {xs : List Judged} (h : b.KeepsTo xs) (hnone : NoneRefused xs) :
    ((xs.map Prod.fst).foldl step b).refusal = none := by
  induction xs generalizing b with
  | nil => exact h
  | cons x xs ih =>
    obtain ⟨hx, hxs⟩ := noneRefused_cons.1 hnone
    obtain ⟨e, why⟩ := x
    obtain rfl : why = none := hx
    exact ih h hxs

/-- The first event to be refused is refused, and then it does not matter what comes. -/
theorem KeepsTo.refused {before after : List Judged} {e : Event} {why : Refusal}
    (h : b.KeepsTo (before ++ (e, some why) :: after)) (hbefore : NoneRefused before)
    (later : List Event) :
    ((before.map Prod.fst).foldl step b).Refused why e.position
      ((before.map Prod.fst ++ e :: later).foldl step b) := by
  induction before generalizing b with
  | nil =>
    have hstep : b.Refused why e.position (b.step e) := h.2
    show b.Refused why e.position (later.foldl step (b.step e))
    rwa [foldl_step_of_refusal (by simp [hstep.refusal_eq])]
  | cons x before ih =>
    obtain ⟨hx, hrest⟩ := noneRefused_cons.1 hbefore
    obtain ⟨e', why'⟩ := x
    obtain rfl : why' = none := hx
    exact ih h hrest

/-! ### Nodes -/

theorem step_alias (hb : b.refusal = none) (p : Position) :
    b.step ⟨p, .alias⟩ = b.refuse .alias p := by
  simp [step, hb]

theorem step_sequenceStart_key (hb : b.refusal = none) (hkey : b.awaitsKey = true) (p : Position) :
    b.step ⟨p, .sequenceStart⟩ = b.refuse .keyNotScalar p := by
  simp [step, hb, openFrame, hkey]

theorem step_mappingStart_key (hb : b.refusal = none) (hkey : b.awaitsKey = true) (p : Position) :
    b.step ⟨p, .mappingStart⟩ = b.refuse .keyNotScalar p := by
  simp [step, hb, openFrame, hkey]

theorem hasKey_ofEntries {start : Position} {done : List (Entry Node)} {text : String} :
    (Frame.ofEntries start done).hasKey text = true ↔ text ∈ done.map Entry.key := by
  simp [Frame.ofEntries, Frame.hasKey]

/-- A key is judged by the keys that its mapping has already. -/
theorem keepsTo_key (hb : b.refusal = none) (start : Position) (done : List (Entry Node))
    (fs : List Frame) :
    (key : Described) → (b.withStack (.ofEntries start done :: fs)).KeepsTo
      (key.judged (.key (done.map Entry.key)))
  | .alias p => keepsTo_some hb (step_alias (refusal_withStack.trans hb) p)
  | .sequence p items stop =>
    keepsTo_some hb (step_sequenceStart_key (refusal_withStack.trans hb) rfl p)
  | .mapping p entries stop =>
    keepsTo_some hb (step_mappingStart_key (refusal_withStack.trans hb) rfl p)
  | .scalar style text p => by
    rw [Described.judged, Place.refusesScalar]
    split
    · next htaken =>
      refine keepsTo_some hb ?_
      rw [step_key (refusal_withStack.trans hb) rfl]
      simp [Builder.key, withStack, hasKey_ofEntries.2 htaken]
    · next hnew =>
      have hkey : (b.withStack (.ofEntries start done :: fs)).step ⟨p, .scalar style text⟩ = _ :=
        @foldl_step_key b hb start done fs (.scalar style text p) trivial hnew
      refine keepsTo_none ?_
      rw [hkey]
      exact hb

theorem refusal_node (n : Node) : (b.node n).refusal = b.refusal := by
  rw [node]
  split <;> rfl

mutual

/-- The events of a node are judged rightly wherever no key is awaited. -/
theorem keepsTo_judged : (d : Described) → (b : Builder) → b.refusal = none →
    b.awaitsKey = false → b.KeepsTo (d.judged .node)
  | .alias p, b, hb, hkey => keepsTo_some hb (step_alias hb p)
  | .scalar style text p, b, hb, hkey => by
    refine keepsTo_none ?_
    rw [step_scalar hb hkey, refusal_node, hb]
  | .sequence start items stop, b, hb, hkey => by
    show (b.step ⟨start, .sequenceStart⟩).KeepsTo (_ ++ _)
    rw [step_sequenceStart hb hkey]
    refine (keepsTo_judgedItems items b hb start [] b.stack).append fun hitems => keepsTo_none ?_
    rw [Described.map_fst_judgedItems,
      foldl_step_itemEvents items (Described.itemsAreTrees_of_noneRefused items hitems) b hb,
      step_sequenceEnd (refusal_withStack.trans hb), closeFrame_withStack, refusal_node]
    exact hb
  | .mapping start entries stop, b, hb, hkey => by
    have hempty : Frame.mapping [] start false none = .ofEntries start [] := rfl
    show (b.step ⟨start, .mappingStart⟩).KeepsTo (_ ++ _)
    rw [step_mappingStart hb hkey, hempty]
    refine (keepsTo_judgedEntries entries b hb start [] b.stack).append
      fun hentries => keepsTo_none ?_
    obtain ⟨hnodup, htrees⟩ :=
      Described.entriesAreTrees_of_noneRefused entries [] List.nodup_nil hentries
    rw [Described.map_fst_judgedEntries,
      foldl_step_entryEvents entries htrees b hb start [] b.stack hnodup,
      step_mappingEnd (refusal_withStack.trans hb), closeFrame_withStack, refusal_node]
    exact hb

/-- The events of items are judged rightly while their list is open. -/
theorem keepsTo_judgedItems : (items : List Described) → (b : Builder) → b.refusal = none →
    (start : Position) → (done : List Node) → (fs : List Frame) →
    (b.withStack (.list done start :: fs)).KeepsTo (Described.judgedItems items)
  | [], b, hb, start, done, fs => hb
  | item :: items, b, hb, start, done, fs => by
    refine (keepsTo_judged item _ (refusal_withStack.trans hb) rfl).append fun hitem => ?_
    rw [Described.map_fst_judged,
      foldl_step_events item (Described.isTree_of_noneRefused item hitem) _
        (refusal_withStack.trans hb) rfl,
      node_withStack, Frame.takeNode]
    exact keepsTo_judgedItems items b hb start _ fs

/-- The events of entries are judged rightly while their mapping is open. -/
theorem keepsTo_judgedEntries : (entries : List (Described × Described)) → (b : Builder) →
    b.refusal = none → (start : Position) → (done : List (Entry Node)) → (fs : List Frame) →
    (b.withStack (.ofEntries start done :: fs)).KeepsTo
      (Described.judgedEntries (done.map Entry.key) entries)
  | [], b, hb, start, done, fs => hb
  | (key, value) :: entries, b, hb, start, done, fs => by
    -- A key that is taken waits for the value, and both together are one more entry.
    have htaken : NoneRefused (key.judged (.key (done.map Entry.key))) →
        ((key.judged (.key (done.map Entry.key))).map Prod.fst).foldl step
            (b.withStack (.ofEntries start done :: fs)) =
          b.withStack ((Frame.ofEntries start done).takeKey key.key.1 key.key.2 :: fs) := by
      intro hkey
      obtain ⟨hscalar, hnew, -⟩ := Described.isScalar_of_noneRefused hkey
      rw [Described.map_fst_judged, foldl_step_key hb start fs hscalar hnew]
    refine ((keepsTo_key hb start done fs key).append fun hkey => ?_).append fun hentry => ?_
    · rw [htaken hkey]
      exact keepsTo_judged value _ hb
        (awaitsKey_withStack.trans (Frame.awaitsKey_takeKey_ofEntries ..))
    · obtain ⟨hkey, hvalue⟩ := noneRefused_append.1 hentry
      rw [List.map_append, List.foldl_append, htaken hkey, Described.map_fst_judged,
        foldl_step_events value (Described.isTree_of_noneRefused value hvalue) _
          (refusal_withStack.trans hb) (awaitsKey_withStack.trans (Frame.awaitsKey_takeKey_ofEntries ..)),
        node_withStack, Frame.takeNode_takeKey_ofEntries,
        (Described.isScalar_of_noneRefused hkey).2.2]
      have hrest := keepsTo_judgedEntries entries b hb start
        (done ++ [⟨key.key.1, key.key.2, value.tree⟩]) fs
      rwa [List.map_append, List.map_singleton] at hrest

end

/-! ### Documents -/

theorem keepsTo_firstDocument (d : DescribedDocument) : ({} : Builder).KeepsTo (d.judged none) := by
  have hroot := keepsTo_judged d.root { documents := 1 } rfl rfl
  show Builder.KeepsTo { documents := 1 } (_ ++ _)
  refine hroot.append fun hnone => keepsTo_none ?_
  rw [Described.map_fst_judged,
    foldl_step_events d.root (Described.isTree_of_noneRefused d.root hnone) _ rfl rfl]
  rfl

/-- A first document in which nothing is refused leaves its tree. -/
theorem foldl_step_firstDocument {d : DescribedDocument} (h : NoneRefused (d.judged none)) :
    ((d.judged none).map Prod.fst).foldl step {} =
      { root := some d.root.tree, documents := 1 } := by
  have hroot : NoneRefused (d.root.judged .node) := (noneRefused_append.1 (noneRefused_cons.1 h).2).1
  have hnode := foldl_step_events d.root (Described.isTree_of_noneRefused d.root hroot)
    { documents := 1 } rfl rfl
  have hstart : ({} : Builder).step ⟨d.start, .documentStart⟩ = { documents := 1 } := rfl
  rw [DescribedDocument.judged, List.cons_append, List.map_cons, List.map_append,
    Described.map_fst_judged, List.foldl_cons, List.foldl_append, hstart, hnode]
  rfl

/-- The first document is taken if nothing in it is refused, and no other one ever is. -/
theorem keepsTo_judgedDocuments (ds : List DescribedDocument) :
    ({} : Builder).KeepsTo (judgedDocuments none ds) := by
  cases ds with
  | nil => rfl
  | cons d ds =>
    refine (keepsTo_firstDocument d).append fun hnone => ?_
    rw [foldl_step_firstDocument hnone]
    cases ds with
    | nil => rfl
    | cons d' ds =>
      -- The second document is refused at its start, whatever it holds.
      exact ⟨rfl, rfl, rfl, rfl⟩

/-- The end of a stream changes nothing. -/
theorem step_streamEnd (p : Position) : b.step ⟨p, .streamEnd⟩ = b := by
  rw [step]
  split <;> rfl

theorem keepsTo_stream (s : DescribedStream) : ({} : Builder).KeepsTo s.judged := by
  have hdocuments := keepsTo_judgedDocuments s.documents
  show Builder.KeepsTo {} (_ ++ _)
  refine hdocuments.append fun hnone => keepsTo_none ?_
  rw [step_streamEnd]
  exact hdocuments.refusal_foldl hnone

end Builder

/-! ## The verdict on a stream -/

/-- A stream is refused for the first event that is to blame, if there is any. What comes behind
that event, whatever it is, changes neither the refusal nor what has been built. -/
structure RefusesEarliest (s : DescribedStream) : Prop where
  events_eq : s.judged.map Prod.fst = s.events
  refusal_eq_none_iff : (Builder.run s.events).refusal = none ↔ ∀ x ∈ s.judged, x.2 = none
  refused : ∀ before e why after, s.judged = before ++ (e, some why) :: after →
    (∀ x ∈ before, x.2 = none) → ∀ later,
      (Builder.run (before.map Prod.fst)).Refused why e.position
        (Builder.run (before.map Prod.fst ++ e :: later))

theorem refusesEarliest (s : DescribedStream) : RefusesEarliest s := by
  have hkeeps := Builder.keepsTo_stream s
  have hrefused : ∀ before e why after, s.judged = before ++ (e, some why) :: after →
      (∀ x ∈ before, x.2 = none) → ∀ later,
        (Builder.run (before.map Prod.fst)).Refused why e.position
          (Builder.run (before.map Prod.fst ++ e :: later)) :=
    fun before e why after hjudged hbefore => (hjudged ▸ hkeeps).refused hbefore
  refine ⟨s.map_fst_judged, ⟨fun hnone => ?_, fun hall => ?_⟩, hrefused⟩
  · refine Classical.byContradiction fun hsome => ?_
    obtain ⟨before, e, why, after, hjudged, hbefore⟩ := exists_first_of_not_noneRefused hsome
    have hlater := hrefused before e why after hjudged hbefore (after.map Prod.fst)
    rw [← s.map_fst_judged, hjudged, List.map_append, List.map_cons, hlater.refusal_eq] at hnone
    cases hnone
  · rw [Builder.run, ← s.map_fst_judged]
    exact hkeeps.refusal_foldl hall

end TestScript.Document
