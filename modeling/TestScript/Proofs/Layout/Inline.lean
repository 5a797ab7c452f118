import Mathlib
import TestScript.Proofs.Document.Loading
import TestScript.Proofs.Layout.Rules

/-!
# Which mappings are taken to be inline

No event says how a mapping is written. It is taken to be inline if its first key stands behind the
mark of the mapping. So it is behind a brace, but also behind an explicit indicator, with which an
indented mapping may begin as well (`places_of_openings`). A script that has such an indicator at
the first key of a level is refused as if the level were written between braces
(`indicated_refused`), and one that has neither is not.
-/

namespace TestScript.Document

open Yaml (Event)

/-! ## Marks -/

/-- What the first key of a mapping is introduced by, and where: a brace, an explicit indicator, or
nothing but the key itself, as in most indented mappings. -/
inductive Opening where
  | brace (p : Position)
  | indicator (p : Position)
  | key

namespace Opening

/-- What the mark of a mapping and the place of its first key are like if it is opened in some way:
a brace or an indicator is marked and stands in front of the key, and else the mark is at the key or
behind it. -/
def Marks : Opening → Position × Position → Prop
  | .brace p, (start, first) | .indicator p, (start, first) => start = p ∧ ¬ first ≤ p
  | .key, (start, first) => first ≤ start

/-- Whether a mapping is written between braces. -/
def isBrace : Opening → Bool
  | .brace _ => true
  | .indicator _ | .key => false

/-- Whether something stands in front of the first key. -/
def isMarked : Opening → Bool
  | .brace _ | .indicator _ => true
  | .key => false

end Opening

/-- The marks of the mappings that have a first key, with its place, in reading order. -/
def firstKeys : List Event → List (Position × Position)
  | ⟨start, .mappingStart⟩ :: ⟨first, .scalar _ _⟩ :: es => (start, first) :: firstKeys es
  | _ :: es => firstKeys es
  | [] => []

mutual

/-- Where the mappings of a tree begin that have entries, and whether they are inline, in reading
order. -/
def Node.places : Node → List (Position × Bool)
  | .mapping entries p flow =>
    (if entries.isEmpty then [] else [(p, flow)]) ++ Node.entryPlaces entries
  | .list items _ => Node.itemPlaces items
  | .scalar .. | .null _ => []

/-- The mappings below the entries of a mapping. -/
def Node.entryPlaces : List (Entry Node) → List (Position × Bool)
  | [] => []
  | ⟨_, _, value⟩ :: entries => value.places ++ Node.entryPlaces entries

/-- The mappings in nodes in a row. -/
def Node.itemPlaces : List Node → List (Position × Bool)
  | [] => []
  | item :: items => item.places ++ Node.itemPlaces items

end

/-- Where a mapping begins, and whether it is taken to be inline, by its mark and its first key. -/
def placeOf (x : Position × Position) : Position × Bool :=
  if x.2 ≤ x.1 then (x.2, false) else (x.1, true)

theorem Opening.Marks.snd_placeOf {o : Opening} {x : Position × Position}
    (h : o.Marks x) : (placeOf x).2 = o.isMarked := by
  cases o with
  | brace p | indicator p =>
    obtain ⟨hstart, hfirst⟩ := h
    rw [placeOf, hstart, if_neg hfirst]
    rfl
  | key =>
    have hfirst : x.2 ≤ x.1 := h
    rw [placeOf, if_pos hfirst]
    rfl

/-- What is taken to be inline begins at a brace or at an indicator. -/
theorem Opening.Marks.of_placeOf_eq {o : Opening} {x : Position × Position} {p : Position}
    (h : o.Marks x) (hp : placeOf x = (p, true)) : o = .brace p ∨ o = .indicator p := by
  have hmarked : o.isMarked = true := by rw [← h.snd_placeOf, hp]
  cases o with
  | brace q | indicator q =>
    obtain ⟨hstart, hfirst⟩ := h
    rw [placeOf, hstart, if_neg hfirst] at hp
    cases hp
    simp
  | key => cases hmarked

section

variable {openings : List Opening} {xs : List (Position × Position)}

theorem map_snd_placeOf (h : List.Forall₂ Opening.Marks openings xs) :
    (xs.map placeOf).map Prod.snd = openings.map Opening.isMarked := by
  induction h with
  | nil => rfl
  | cons hx _ ih => rw [List.map_cons, List.map_cons, List.map_cons, ih, hx.snd_placeOf]

theorem brace_or_indicator_of_mem (h : List.Forall₂ Opening.Marks openings xs)
    {p : Position} (hp : (p, true) ∈ xs.map placeOf) :
    .brace p ∈ openings ∨ .indicator p ∈ openings := by
  induction h with
  | nil => cases hp
  | cons hx _ ih =>
    obtain hp | hp := List.mem_cons.1 hp
    · obtain rfl | rfl := hx.of_placeOf_eq hp.symm <;> simp
    · exact (ih hp).imp (List.mem_cons_of_mem _) (List.mem_cons_of_mem _)

end

/-! ## From the events to the tree -/

namespace Described

theorem IsScalar.exists_eq : {d : Described} → d.IsScalar →
    ∃ style text p, d = .scalar style text p
  | .scalar style text p, _ => ⟨style, text, p, rfl⟩

mutual

/-- The mappings of a tree are told by the first keys among its events. -/
theorem map_firstKeys_events :
    (d : Described) → d.IsTree → (es : List Event) →
      (firstKeys (d.events ++ es)).map placeOf = d.tree.places ++ (firstKeys es).map placeOf
  | .scalar style text p, h, es => by
    rw [tree, scalarTree]
    split <;> rfl
  | .sequence start items stop, h, es => by
    have hitems := map_firstKeys_itemEvents items h (⟨stop, .sequenceEnd⟩ :: es)
    simpa [events, tree, Node.places, firstKeys] using hitems
  | .mapping start [] stop, h, es => by
    simp [events, entryEvents, tree, entryTrees, Node.places, Node.entryPlaces, firstKeys]
  | .mapping start ((key, value) :: entries) stop, h, es => by
    have hentries := map_firstKeys_entryEvents ((key, value) :: entries) h.2
      (⟨stop, .mappingEnd⟩ :: es)
    obtain ⟨-, hkey, -⟩ := h
    obtain ⟨style, text, p, rfl⟩ := hkey.exists_eq
    -- The first key is the event behind the mark of the mapping, and the rest is told as before.
    have hplace : placeOf (start, p) =
        mappingPlace start (entryTrees ((.scalar style text p, value) :: entries)) := rfl
    simpa [events, entryEvents, tree, Node.places, firstKeys, hplace, entryTrees] using hentries

theorem map_firstKeys_itemEvents :
    (items : List Described) → ItemsAreTrees items → (es : List Event) →
      (firstKeys (itemEvents items ++ es)).map placeOf =
        Node.itemPlaces (itemTrees items) ++ (firstKeys es).map placeOf
  | [], h, es => rfl
  | item :: items, h, es => by
    rw [itemEvents, List.append_assoc, map_firstKeys_events item h.1,
      map_firstKeys_itemEvents items h.2, itemTrees, Node.itemPlaces, List.append_assoc]

theorem map_firstKeys_entryEvents :
    (entries : List (Described × Described)) → EntriesAreTrees entries → (es : List Event) →
      (firstKeys (entryEvents entries ++ es)).map placeOf =
        Node.entryPlaces (entryTrees entries) ++ (firstKeys es).map placeOf
  | [], h, es => rfl
  | (key, value) :: entries, h, es => by
    obtain ⟨hkey, hvalue, hentries⟩ := h
    obtain ⟨style, text, p, rfl⟩ := hkey.exists_eq
    have hfirst : firstKeys (entryEvents ((.scalar style text p, value) :: entries) ++ es) =
        firstKeys (value.events ++ (entryEvents entries ++ es)) := by
      simp [entryEvents, events, firstKeys]
    rw [hfirst, map_firstKeys_events value hvalue, map_firstKeys_entryEvents entries hentries,
      entryTrees, Node.entryPlaces, List.append_assoc]

end

/-- Only a mapping that has entries is taken to be inline. -/
theorem mem_places_of_tree_eq {d : Described} {entries : List (Entry Node)} {p : Position}
    (h : d.tree = .mapping entries p true) : (p, true) ∈ d.tree.places := by
  cases entries with
  | cons e entries =>
    rw [h, Node.places]
    exact List.mem_cons_self
  | nil =>
    -- Without a first key there is nothing that could stand behind the mark.
    match d, h with
    | .scalar style text q, h =>
      rw [tree, scalarTree] at h
      split at h <;> cases h
    | .mapping start entries' stop, h =>
      rw [tree, Node.mapping.injEq] at h
      obtain ⟨hentries, -, hflow⟩ := h
      rw [hentries] at hflow
      cases hflow

end Described

/-- The mappings of a loaded document are told by the first keys among the events of the text. -/
theorem places_of_load {text : String} {es : List Event} {root : Node}
    (hevents : Event.ofText text = .ok es) (hload : load text = .ok root) :
    root.places = (firstKeys es).map placeOf ∧
      ∀ entries p, root = .mapping entries p true → (p, true) ∈ root.places := by
  obtain ⟨s, rfl, -⟩ := Yaml.exists_stream_of_ofText hevents
  rw [load_of_events hevents] at hload
  obtain ⟨start, documents, stop⟩ := s
  obtain ⟨rfl, rfl⟩ | ⟨d, rfl, htree, rfl⟩ := root_of_ofEvents_stream hload
  · exact ⟨rfl, nofun⟩
  · refine ⟨?_, fun entries p h => Described.mem_places_of_tree_eq h⟩
    have hroot := Described.map_firstKeys_events d.root htree
      [⟨d.stop, .documentEnd⟩, ⟨stop, .streamEnd⟩]
    simpa [DescribedStream.events, DescribedDocument.events, firstKeys] using hroot.symm

end TestScript.Document

namespace TestScript.Script

open Document (Node Entry Opening firstKeys load placeOf places_of_load map_snd_placeOf
  brace_or_indicator_of_mem)
open Layout

variable {x : Placed} {y : Position × Bool}

/-! ## From the tree to the error -/

mutual

/-- What stands in the value of an entry stands in the mapping that the entry is looked at in. -/
theorem mem_entryPlaces_of_mem_placedEntries {level : Nat} {context : Context} :
    (entries : List (Entry Node)) → x ∈ placedEntries level context entries →
      y ∈ x.entry.value.places → y ∈ Node.entryPlaces entries
  | ⟨key, p, value⟩ :: entries, hx, hy => by
    rw [placedEntries, List.cons_append, List.mem_cons, List.mem_append] at hx
    rw [Node.entryPlaces, List.mem_append]
    obtain rfl | hx | hx := hx
    · exact .inl hy
    · exact .inl (mem_places_of_mem_placedBelow value hx hy)
    · exact .inr (mem_entryPlaces_of_mem_placedEntries entries hx hy)

theorem mem_places_of_mem_placedBelow {level : Nat} {role : Role} :
    (value : Node) → x ∈ placedBelow level role value →
      y ∈ x.entry.value.places → y ∈ value.places
  | .mapping entries p flow, hx, hy => by
    rw [placedBelow] at hx
    split at hx
    · cases hx
    · exact List.mem_append_right _ (mem_entryPlaces_of_mem_placedEntries entries hx hy)
  | .list items p, hx, hy => by
    rw [placedBelow] at hx
    split at hx
    · cases hx
    · exact mem_itemPlaces_of_mem_placedItems items hx hy

theorem mem_itemPlaces_of_mem_placedItems {level : Nat} {role : Role} :
    (items : List Node) → x ∈ placedItems level role items →
      y ∈ x.entry.value.places → y ∈ Node.itemPlaces items
  | item :: items, hx, hy => by
    rw [placedItems, List.mem_append] at hx
    rw [Node.itemPlaces, List.mem_append]
    exact hx.imp (mem_places_of_mem_placedBelow item · hy)
      (mem_itemPlaces_of_mem_placedItems items · hy)

end

/-- An entry that is refused as inline has an inline mapping. -/
theorem mem_places_of_breaks {m : Margins} {key : String} {p : Position}
    (h : x.Breaks m ⟨.inlineMapping key, p⟩) : (p, true) ∈ x.entry.value.places := by
  cases h with
  | value hcolumn hvalue =>
    generalize x.role = role, x.entry.value = value at hvalue ⊢
    cases hvalue with
    | inlineMapping hrole hentries => simp [Node.places, hentries]
    | item hrole hitem =>
      obtain ⟨before, item, after, -, -, -, hitem⟩ := hitem
      cases hitem

/-- What is refused as inline is an inline mapping. -/
theorem mem_places_of_tokensOf {unit : Nat} {root : Node} {key : String} {p : Position}
    (hroot : ∀ entries q, root = .mapping entries q true → (q, true) ∈ root.places)
    (h : tokensOf unit root = .error ⟨.inlineMapping key, p⟩) : (p, true) ∈ root.places := by
  cases root with
  | null q | scalar text quoted q | list items q => cases h
  | mapping entries q flow =>
    cases flow with
    | true =>
      cases h
      exact hroot entries p rfl
    | false =>
      have hunit : 0 < (margins unit entries).unit :=
        Nat.lt_of_lt_of_le Nat.zero_lt_one (Nat.le_max_right unit 1)
      rw [tokensOf, if_neg Bool.false_ne_true, entryTokens_eq_error_iff hunit] at h
      obtain ⟨before, x, after, hplaced, -, hx⟩ := h
      have hmem : x ∈ placedEntries 0 .body entries := by simp [hplaced]
      exact List.mem_append_right _
        (mem_entryPlaces_of_mem_placedEntries entries hmem (mem_places_of_breaks hx))

/-! ## Which mappings are inline -/

/-- **A mapping is taken to be inline if something stands in front of its first key**: a brace, or
an indicator. So braces are told rightly as long as no first key has an indicator, and what is
refused as inline begins with one of the two. -/
theorem places_of_openings {text : String} {es : List Yaml.Event} {root : Node}
    {openings : List Opening} (hevents : Yaml.Event.ofText text = .ok es)
    (hload : load text = .ok root)
    (hmarks : List.Forall₂ Opening.Marks openings (firstKeys es)) :
    root.places.map Prod.snd = openings.map Opening.isMarked ∧
    ((∀ p, .indicator p ∉ openings) →
      root.places.map Prod.snd = openings.map Opening.isBrace) ∧
    ∀ unit key p, tokensOf unit root = .error ⟨.inlineMapping key, p⟩ →
      .brace p ∈ openings ∨ .indicator p ∈ openings := by
  obtain ⟨hplaces, hroot⟩ := places_of_load hevents hload
  have hmarked : root.places.map Prod.snd = openings.map Opening.isMarked := by
    rw [hplaces, map_snd_placeOf hmarks]
  refine ⟨hmarked, fun hindicator => ?_, fun unit key p herror => ?_⟩
  · rw [hmarked]
    refine List.map_congr_left fun o ho => ?_
    cases o with
    | indicator p => exact (hindicator p ho).elim
    | brace | key => rfl
  · have hp := mem_places_of_tokensOf hroot herror
    rw [hplaces] at hp
    exact brace_or_indicator_of_mem hmarks hp

/-- An indented mapping with an inline one in it, and with an indented one that begins with an
indicator. -/
theorem places_threeOpenings :
    ∃ root, load "a: {b: c}\nd:\n  ? e\n" = .ok root ∧
      root.places.map Prod.snd = [false, true, true] := by
  have hevents : Yaml.Event.ofText "a: {b: c}\nd:\n  ? e\n" = .ok
      [⟨⟨0, 0⟩, .streamStart⟩, ⟨⟨0, 1⟩, .documentStart⟩,
        ⟨⟨0, 1⟩, .mappingStart⟩,
        ⟨⟨0, 0⟩, .scalar .plain "a"⟩,
        ⟨⟨0, 3⟩, .mappingStart⟩,
        ⟨⟨0, 4⟩, .scalar .plain "b"⟩, ⟨⟨0, 7⟩, .scalar .plain "c"⟩,
        ⟨⟨0, 8⟩, .mappingEnd⟩,
        ⟨⟨1, 0⟩, .scalar .plain "d"⟩,
        ⟨⟨2, 2⟩, .mappingStart⟩,
        ⟨⟨2, 4⟩, .scalar .plain "e"⟩, ⟨⟨3, 0⟩, .scalar .plain ""⟩,
        ⟨⟨3, 0⟩, .mappingEnd⟩,
        ⟨⟨3, 0⟩, .mappingEnd⟩,
        ⟨⟨3, 0⟩, .documentEnd⟩, ⟨⟨3, 0⟩, .streamEnd⟩] := by
    cbv
  have hmarks : List.Forall₂ Opening.Marks
      [.key, .brace ⟨0, 3⟩, .indicator ⟨2, 2⟩]
      [(⟨0, 1⟩, ⟨0, 0⟩), (⟨0, 3⟩, ⟨0, 4⟩), (⟨2, 2⟩, ⟨2, 4⟩)] := by
    simp [Opening.Marks, Position.le_iff]
  have hload := Document.load_of_events hevents
  exact ⟨_, hload, (places_of_openings hevents hload hmarks).1⟩

/-- A script without any brace. Its one step is written with an indicator. -/
def indicated : String :=
  "issue: t\nsteps:\n  ? s1\n  :\n"

/-- An indented mapping is refused as inline although nothing in the text is. -/
theorem indicated_refused :
    '{' ∉ indicated.toList ∧ ∃ es root, Yaml.Event.ofText indicated = .ok es ∧
      load indicated = .ok root ∧
      List.Forall₂ Opening.Marks [.key, .indicator ⟨2, 2⟩] (firstKeys es) ∧
      root.places = [(⟨0, 0⟩, false), (⟨2, 2⟩, true)] ∧
      tokensOf 4 root = .error ⟨.inlineMapping "steps", ⟨2, 2⟩⟩ := by
  have hevents : Yaml.Event.ofText indicated = .ok
      [⟨⟨0, 0⟩, .streamStart⟩, ⟨⟨0, 5⟩, .documentStart⟩,
        ⟨⟨0, 5⟩, .mappingStart⟩,
        ⟨⟨0, 0⟩, .scalar .plain "issue"⟩, ⟨⟨0, 7⟩, .scalar .plain "t"⟩,
        ⟨⟨1, 0⟩, .scalar .plain "steps"⟩,
        ⟨⟨2, 2⟩, .mappingStart⟩,
        ⟨⟨2, 4⟩, .scalar .plain "s1"⟩, ⟨⟨4, 0⟩, .scalar .plain ""⟩,
        ⟨⟨4, 0⟩, .mappingEnd⟩,
        ⟨⟨4, 0⟩, .mappingEnd⟩,
        ⟨⟨4, 0⟩, .documentEnd⟩, ⟨⟨4, 0⟩, .streamEnd⟩] := by
    cbv
  have hload := Document.load_of_events hevents
  refine ⟨by decide, _, _, hevents, hload, ?_, rfl, rfl⟩
  simp [Opening.Marks, firstKeys, Position.le_iff]

end TestScript.Script
