import TestScript.Proofs.Likeness.Layout
import TestScript.Proofs.Likeness.Reading

/-!
# What a script says does not depend on its layout

Columns decide whether a document is laid out like a script, but never what it says. Two documents
that are the same but for their places have the same tokens but for their places, whatever the
indent unit of each is, and these are read alike. If all of a document is moved by some columns,
then so is all that comes of it.
-/

namespace TestScript

/-- A place that is moved to the right. -/
def Position.shift (k : Nat) (p : Position) : Position :=
  { p with column := p.column + k }

namespace Document

mutual

/-- A node in other places. -/
def Node.mapPositions (f : Position → Position) : Node → Node
  | .mapping entries p flow => .mapping (entriesMapPositions f entries) (f p) flow
  | .list items p => .list (itemsMapPositions f items) (f p)
  | .scalar text quoted p => .scalar text quoted (f p)
  | .null p => .null (f p)

/-- Entries in other places. -/
def entriesMapPositions (f : Position → Position) : List (Entry Node) → List (Entry Node)
  | [] => []
  | ⟨key, p, value⟩ :: entries =>
    ⟨key, f p, value.mapPositions f⟩ :: entriesMapPositions f entries

/-- Items in other places. -/
def itemsMapPositions (f : Position → Position) : List Node → List Node
  | [] => []
  | item :: items => item.mapPositions f :: itemsMapPositions f items

end

variable {f g : Position → Position}

theorem Node.position_mapPositions (v : Node) : (v.mapPositions f).position = f v.position := by
  cases v <;> rfl

mutual

theorem Node.mapPositions_id : (v : Node) → v.mapPositions id = v
  | .mapping entries p flow => by
    rw [Node.mapPositions, entriesMapPositions_id entries]
    rfl
  | .list items p => by
    rw [Node.mapPositions, itemsMapPositions_id items]
    rfl
  | .scalar text quoted p => rfl
  | .null p => rfl

theorem entriesMapPositions_id : (entries : List (Entry Node)) →
    entriesMapPositions id entries = entries
  | [] => rfl
  | ⟨key, p, value⟩ :: entries => by
    rw [entriesMapPositions, Node.mapPositions_id value, entriesMapPositions_id entries]
    rfl

theorem itemsMapPositions_id : (items : List Node) → itemsMapPositions id items = items
  | [] => rfl
  | item :: items => by
    rw [itemsMapPositions, Node.mapPositions_id item, itemsMapPositions_id items]

end

mutual

/-- The payload of a node does not tell where it stands. -/
theorem Node.toPayload_mapPositions : (v : Node) → (v.mapPositions f).toPayload = v.toPayload
  | .mapping entries p flow => by
    rw [mapPositions, toPayload, toPayload, memberPayloads_mapPositions entries]
  | .list items p => by
    rw [mapPositions, toPayload, toPayload, itemPayloads_mapPositions items]
  | .scalar text quoted p => rfl
  | .null p => rfl

theorem Node.memberPayloads_mapPositions : (entries : List (Entry Node)) →
    (members : List (String × Payload)) →
      memberPayloads (entriesMapPositions f entries) members = memberPayloads entries members
  | [], members => rfl
  | ⟨key, p, value⟩ :: entries, members => by
    rw [entriesMapPositions, memberPayloads, memberPayloads,
      Node.toPayload_mapPositions value, memberPayloads_mapPositions entries]

theorem Node.itemPayloads_mapPositions : (items : List Node) →
    itemPayloads (itemsMapPositions f items) = itemPayloads items
  | [] => rfl
  | item :: items => by
    rw [itemsMapPositions, itemPayloads, itemPayloads, Node.toPayload_mapPositions item,
      itemPayloads_mapPositions items]

end

/-- Two nodes are the same but for where they stand. -/
def Node.SameText (v v' : Node) : Prop :=
  v.mapPositions (fun _ => {}) = v'.mapPositions (fun _ => {})

/-- All of a node is moved to the right. -/
def Node.shift (k : Nat) (v : Node) : Node :=
  v.mapPositions (Position.shift k)

end Document

namespace Script

open Document (Node Entry entriesMapPositions itemsMapPositions)
open Layout

/-! ## Documents that differ in places only -/

section

variable {f g : Position → Position} {P : Position → Position → Prop}

theorem isBlob_mapPositions {mappingOnly : Bool} {v : Node} :
    IsBlob mappingOnly (v.mapPositions f) ↔ IsBlob mappingOnly v := by
  cases v with
  | mapping entries p flow =>
    cases entries <;> simp [Node.mapPositions, entriesMapPositions, IsBlob]
  | list items p => cases items <;> simp [Node.mapPositions, itemsMapPositions, IsBlob]
  | scalar | null => rfl

/-- Whether a value is taken as a whole does not depend on its places. -/
theorem takesWhole_of_mapPositions_eq {key : String} {level : Nat} {v v' : Node}
    (h : v.mapPositions f = v'.mapPositions g) (hv : TakesWhole key level v) :
    TakesWhole key level v' := by
  obtain ⟨k, mappingOnly, hkey, hlevel, hshape, hblob⟩ := hv
  refine ⟨k, mappingOnly, hkey, hlevel, hshape, ?_⟩
  rw [← isBlob_mapPositions (f := g), ← h, isBlob_mapPositions]
  exact hblob

/-- Nor does what it hands on. -/
theorem handsOn_mapPositions (hP : ∀ p p', f p = g p' → P p p') :
    HandsOn (fun v v' => v.mapPositions f = v'.mapPositions g) (Likeness.ofPlaces P).object := by
  intro v v' h
  constructor
  · show v.toPayload = v'.toPayload
    rw [← Node.toPayload_mapPositions (f := f) v, h, Node.toPayload_mapPositions]
  · apply hP
    calc f v.position
      _ = (v.mapPositions f).position := (Node.position_mapPositions v).symm
      _ = g v'.position := by rw [h, Node.position_mapPositions]

mutual

/-- Nodes that are the same in other places are alike. -/
theorem nodeLike_of_mapPositions_eq (hP : ∀ p p', f p = g p' → P p p') (level : Nat) :
    (v : Node) → {v' : Node} → v.mapPositions f = v'.mapPositions g →
      NodeLike P (fun v v' => v.mapPositions f = v'.mapPositions g) level v v'
  | .mapping entries p flow, v', h => by
    cases v' with
    | mapping entries' p' flow' =>
      obtain ⟨hentries, hp, rfl⟩ := Node.mapping.inj h
      exact .mapping flow (hP p p' hp) (entriesLike_of_mapPositions_eq hP level entries hentries)
    | list | scalar | null => cases h
  | .list items p, v', h => by
    cases v' with
    | list items' p' =>
      obtain ⟨hitems, hp⟩ := Node.list.inj h
      exact .list (hP p p' hp) (itemsLike_of_mapPositions_eq hP level items hitems)
    | mapping | scalar | null => cases h
  | .scalar text quoted p, v', h => by
    cases v' with
    | scalar text' quoted' p' =>
      obtain ⟨rfl, rfl, hp⟩ := Node.scalar.inj h
      exact .scalar text quoted (hP p p' hp)
    | mapping | list | null => cases h
  | .null p, v', h => by
    cases v' with
    | null p' => exact .null (hP p p' (Node.null.inj h))
    | mapping | list | scalar => cases h

theorem entriesLike_of_mapPositions_eq (hP : ∀ p p', f p = g p' → P p p') (level : Nat) :
    (entries : List (Entry Node)) → {entries' : List (Entry Node)} →
      entriesMapPositions f entries = entriesMapPositions g entries' →
      EntriesLike P (fun v v' => v.mapPositions f = v'.mapPositions g) level entries entries'
  | [], entries', h => by
    cases entries' with
    | nil => exact .nil
    | cons e entries' => cases h
  | ⟨key, p, v⟩ :: entries, entries', h => by
    cases entries' with
    | nil => cases h
    | cons e' entries' =>
      obtain ⟨key', p', v'⟩ := e'
      obtain ⟨he, hentries⟩ := List.cons.inj h
      obtain ⟨rfl, hp, hv⟩ := Entry.mk.inj he
      have hrest := entriesLike_of_mapPositions_eq hP level entries hentries
      by_cases hwhole : TakesWhole key level v
      · exact .whole (hP p p' hp) hv hwhole (takesWhole_of_mapPositions_eq hv hwhole) hrest
      · exact .deeper (hP p p' hp) (nodeLike_of_mapPositions_eq hP (level + 1) v hv) hwhole hrest

theorem itemsLike_of_mapPositions_eq (hP : ∀ p p', f p = g p' → P p p') (level : Nat) :
    (items : List Node) → {items' : List Node} →
      itemsMapPositions f items = itemsMapPositions g items' →
      ItemsLike P (fun v v' => v.mapPositions f = v'.mapPositions g) level items items'
  | [], items', h => by
    cases items' with
    | nil => exact .nil
    | cons v' items' => cases h
  | v :: items, items', h => by
    cases items' with
    | nil => cases h
    | cons v' items' =>
      obtain ⟨hv, hitems⟩ := List.cons.inj h
      exact .cons (nodeLike_of_mapPositions_eq hP level v hv)
        (itemsLike_of_mapPositions_eq hP level items hitems)

end

theorem tokensOf_matched_of_mapPositions_eq {free : Prop} {unit unit' : Nat} {root root' : Node}
    (hP : ∀ p p', f p = g p' → P p p')
    (hm : ∀ p p', P p p' → ChecksAlike free P ⟨p.column, max unit 1⟩ ⟨p'.column, max unit' 1⟩)
    (h : root.mapPositions f = root'.mapPositions g) :
    Matched free (LayoutErrorLike P) (Likeness.ofPlaces P).TokensLike (tokensOf unit root)
      (tokensOf unit' root') :=
  tokensOf_matched hm (handsOn_mapPositions hP) (nodeLike_of_mapPositions_eq hP 0 root h)

end

/-! ## Tokens that differ in places only -/

section

variable {P : Position → Position → Prop} {t t' : Token} {ts ts' : List Token}

theorem position_of_tokenLike (h : (Likeness.ofPlaces P).TokenLike t t') :
    P t.position t'.position := by
  cases h with
  | keyword k d h | identifier text d h | value text d h => exact h
  | object d h => exact h.2

theorem content_eq_of_tokenLike (h : (Likeness.ofPlaces P).TokenLike t t') :
    (t.kind, t.depth) = (t'.kind, t'.depth) := by
  cases h with
  | keyword | identifier | value => rfl
  | object d h =>
    obtain ⟨hobject, -⟩ := h
    dsimp only at hobject
    rw [hobject]

theorem contents_eq_of_tokensLike (h : (Likeness.ofPlaces P).TokensLike ts ts') :
    ts.map (fun t => (t.kind, t.depth)) = ts'.map fun t => (t.kind, t.depth) := by
  induction h with
  | nil => rfl
  | cons ht _ ih => rw [List.map_cons, List.map_cons, content_eq_of_tokenLike ht, ih]

/-- Two errors have one cause, and their places differ as `P` allows; of no tokens at all the
errors stand at the default place. -/
structure GrammarErrorLike (P : Position → Position → Prop) (ts : List Token)
    (e e' : GrammarError) : Prop where
  cause_eq : e.cause = e'.cause
  place_of_ne_nil : ts ≠ [] → P e.position e'.position
  place_of_eq_nil : ts = [] → e.position = {} ∧ e'.position = {}

theorem grammarErrorLike_of_errorsLike {e e' : GrammarError}
    (hts : (Likeness.ofPlaces P).TokensLike ts ts') (h : ErrorsLike ts ts' e e') :
    GrammarErrorLike P ts e e' := by
  have hzip : ∀ {x y}, (x, y) ∈ ts.zip ts' → P x.position y.position ∧ ts ≠ [] := by
    intro x y hx
    refine ⟨position_of_tokenLike (List.forall₂_zip hts hx), ?_⟩
    rintro rfl
    cases hx
  cases h with
  | token expected ht =>
    exact ⟨rfl, fun _ => (hzip ht).1, fun hnil => absurd hnil (hzip ht).2⟩
  | value clause reason hkind ht =>
    exact ⟨rfl, fun _ => (hzip ht).1, fun hnil => absurd hnil (hzip ht).2⟩
  | atEnd expected =>
    refine ⟨rfl, fun hne => ?_, ?_⟩
    · have hlast := rel_getLast? hts
      rw [List.getLast?_eq_some_getLast hne] at hlast
      generalize hy : ts'.getLast? = y at hlast
      cases hlast with
      | some ht =>
        show P (lastPosition {} ts) (lastPosition {} ts')
        simpa [lastPosition, hy, List.getLast?_eq_some_getLast hne] using position_of_tokenLike ht
    · rintro rfl
      cases hts
      exact ⟨rfl, rfl⟩

end

/-! ## Moving a document -/

/-- A place and the same place moved by `k` columns. -/
def Shifted (k : Nat) (p p' : Position) : Prop :=
  p' = p.shift k

/-- Columns are measured from the left margin, which is moved, too. -/
theorem checksAlike_shift (k unit : Nat) {p p' : Position} (hp : Shifted k p p') :
    ChecksAlike False (Shifted k) ⟨p.column, unit⟩ ⟨p'.column, unit⟩ := by
  obtain rfl := hp
  intro key q q' level hq
  obtain rfl := hq
  unfold checkColumn
  simp only [Position.shift, Nat.add_sub_add_right, Nat.add_lt_add_iff_right]
  split
  · exact .error ⟨rfl, rfl⟩
  · split
    · exact .error ⟨rfl, rfl⟩
    · exact .ok trivial

/-- **What a script says does not depend on its layout.** Documents that are the same but for
places have the same tokens but for places, in any two indent units that fit, and are the same
script but for places or no script for one cause. Moving a document by some columns moves all that
comes of it. -/
theorem layout_independent :
    (∀ (unit unit' : Nat) (root root' : Node) (ts ts' : List Token), root.SameText root' →
      tokensOf unit root = .ok ts → tokensOf unit' root' = .ok ts' →
        ts.map (fun t => (t.kind, t.depth)) = ts'.map (fun t => (t.kind, t.depth)) ∧
        Matched False (fun e e' => e.cause = e'.cause)
          (Likeness.ofPlaces fun _ _ => True).ScriptLike (ofTokens ts) (ofTokens ts')) ∧
    ∀ (unit k : Nat) (root : Node),
      Matched False (LayoutErrorLike (Shifted k))
        (fun ts ts' => (Likeness.ofPlaces (Shifted k)).TokensLike ts ts' ∧
          Matched False (GrammarErrorLike (Shifted k) ts) (Likeness.ofPlaces (Shifted k)).ScriptLike
            (ofTokens ts) (ofTokens ts'))
        (tokensOf unit root) (tokensOf unit (root.shift k)) := by
  constructor
  · intro unit unit' root root' ts ts' hsame hts hts'
    have hmatched : Matched True (LayoutErrorLike fun _ _ => True)
        (Likeness.ofPlaces fun _ _ => True).TokensLike (tokensOf unit root)
        (tokensOf unit' root') :=
      tokensOf_matched_of_mapPositions_eq (fun _ _ _ => trivial)
        (fun _ _ _ _ _ _ _ _ => .of_free trivial fun _ _ _ _ => trivial) hsame
    rw [hts, hts'] at hmatched
    have hlike := hmatched.of_ok
    exact ⟨contents_eq_of_tokensLike hlike, (ofTokens_matched hlike).mono (fun e e' he =>
      (grammarErrorLike_of_errorsLike hlike he).cause_eq) fun _ _ h => h⟩
  · intro unit k root
    have hshift : root.mapPositions (Position.shift k) = (root.shift k).mapPositions id :=
      (Node.mapPositions_id _).symm
    refine (tokensOf_matched_of_mapPositions_eq (P := Shifted k) (fun _ _ h => h.symm)
      (fun _ _ => checksAlike_shift k _) hshift).mono (fun _ _ h => h) fun ts ts' hlike =>
      ⟨hlike, ?_⟩
    exact (ofTokens_matched hlike).mono (fun e e' => grammarErrorLike_of_errorsLike hlike)
      fun _ _ h => h

/-- A script of one step, in which a level is so many columns wide. -/
def indentedStep (unit : Nat) : Node :=
  .mapping
    [⟨"issue", ⟨0, 0⟩, .scalar "t" false ⟨0, 7⟩⟩,
      ⟨"steps", ⟨1, 0⟩, .mapping
        [⟨"s", ⟨2, unit⟩, .mapping
          [⟨"input", ⟨3, 2 * unit⟩, .mapping
            [⟨"a", ⟨3, 2 * unit + 8⟩, .scalar "1" false ⟨3, 2 * unit + 11⟩⟩]
            ⟨3, 2 * unit + 7⟩ true⟩]
          ⟨3, 2 * unit⟩ false⟩]
        ⟨2, unit⟩ false⟩]
    ⟨0, 0⟩ false

/-- One script in two layouts: its levels are two columns wide, or four. -/
theorem layout_independent_two_four :
    ∃ ts ts' s s', tokensOf 2 (indentedStep 2) = .ok ts ∧ tokensOf 4 (indentedStep 4) = .ok ts' ∧
      ofTokens ts = .ok s ∧ ofTokens ts' = .ok s' ∧
      (Likeness.ofPlaces fun _ _ => True).ScriptLike s s' := by
  have h := layout_independent.1 2 4 (indentedStep 2) (indentedStep 4) _ _ rfl rfl rfl
  exact ⟨_, _, _, _, rfl, rfl, rfl, rfl, h.2.of_ok⟩

end Script
end TestScript
