import TestScript.Proofs.Layout.Flattening
import TestScript.Proofs.Likeness.Script

/-!
# Documents that are alike

Two documents are alike if they have the same keys, texts and shapes, and if the places of what
they have in common differ as `P` allows; the blobs that are taken as a whole may be any two that
are related by `R`. The layout of both is then checked in lockstep, and so their tokens are alike
or both are refused for one cause (`tokensOf_matched`). All that this takes of the margins is that
they allow the same (`ChecksAlike`).
-/

namespace TestScript.Script

open Document (Node Entry)
open Layout

/-- A key takes a value as a whole at a level: it is the keyword of a blob there, and the value is
a blob as that keyword wants it. -/
def TakesWhole (key : String) (level : Nat) (value : Node) : Prop :=
  ∃ (k : Keyword) (mappingOnly : Bool),
    key = k.text ∧ level ∈ k.depths ∧ k.shape = .blob mappingOnly ∧ IsBlob mappingOnly value

/-- What a blob hands to a step. -/
def blobParam (value : Node) : Param :=
  ⟨value.toPayload, value.position⟩

section

variable (P : Position → Position → Prop) (R : Node → Node → Prop)

mutual

/-- Two values are alike, the keys of whose mappings are at a level. -/
inductive NodeLike : Nat → Node → Node → Prop
  | mapping {level : Nat} {entries entries' : List (Entry Node)} {p p' : Position} (flow : Bool)
    (hp : P p p') (h : EntriesLike level entries entries') :
    NodeLike level (.mapping entries p flow) (.mapping entries' p' flow)
  | list {level : Nat} {items items' : List Node} {p p' : Position} (hp : P p p')
    (h : ItemsLike level items items') : NodeLike level (.list items p) (.list items' p')
  | scalar {level : Nat} (text : String) (quoted : Bool) {p p' : Position} (hp : P p p') :
    NodeLike level (.scalar text quoted p) (.scalar text quoted p')
  | null {level : Nat} {p p' : Position} (hp : P p p') : NodeLike level (.null p) (.null p')

/-- The items of two lists are alike, one by one. -/
inductive ItemsLike : Nat → List Node → List Node → Prop
  | nil {level : Nat} : ItemsLike level [] []
  | cons {level : Nat} {v v' : Node} {items items' : List Node} (hv : NodeLike level v v')
    (h : ItemsLike level items items') : ItemsLike level (v :: items) (v' :: items')

/-- The entries of two mappings are alike, one by one: they have the same keys, and the values of
a key are alike unless both are taken as a whole. -/
inductive EntriesLike : Nat → List (Entry Node) → List (Entry Node) → Prop
  | nil {level : Nat} : EntriesLike level [] []
  | whole {level : Nat} {key : String} {p p' : Position} {v v' : Node}
    {entries entries' : List (Entry Node)} (hp : P p p') (hv : R v v')
    (hwhole : TakesWhole key level v) (hwhole' : TakesWhole key level v')
    (h : EntriesLike level entries entries') :
    EntriesLike level (⟨key, p, v⟩ :: entries) (⟨key, p', v'⟩ :: entries')
  | deeper {level : Nat} {key : String} {p p' : Position} {v v' : Node}
    {entries entries' : List (Entry Node)} (hp : P p p') (hv : NodeLike (level + 1) v v')
    (hwhole : ¬ TakesWhole key level v) (h : EntriesLike level entries entries') :
    EntriesLike level (⟨key, p, v⟩ :: entries) (⟨key, p', v'⟩ :: entries')

end
end

/-- Two documents are refused for one cause, in places that differ as `P` allows. -/
def LayoutErrorLike (P : Position → Position → Prop) : LayoutError → LayoutError → Prop :=
  Likeness.SameAt P LayoutError.cause LayoutError.position

/-- What one of two margins allows the other one allows, too, unless `free`. -/
def ChecksAlike (free : Prop) (P : Position → Position → Prop) (m m' : Margins) : Prop :=
  ∀ key p p' level, P p p' →
    Matched free (LayoutErrorLike P) (fun _ _ => True) (checkColumn m key p level)
      (checkColumn m' key p' level)

variable {free : Prop} {P : Position → Position → Prop} {R : Node → Node → Prop}

theorem ItemsLike.isEmpty_eq {level : Nat} {items items' : List Node}
    (h : ItemsLike P R level items items') : items.isEmpty = items'.isEmpty := by
  cases h <;> rfl

theorem EntriesLike.isEmpty_eq {level : Nat} {entries entries' : List (Entry Node)}
    (h : EntriesLike P R level entries entries') : entries.isEmpty = entries'.isEmpty := by
  cases h <;> rfl

theorem NodeLike.isEmpty_eq {level : Nat} {v v' : Node} (h : NodeLike P R level v v') :
    v.isEmpty = v'.isEmpty := by
  cases h with
  | mapping flow hp h => exact h.isEmpty_eq
  | list hp h => exact h.isEmpty_eq
  | scalar | null => rfl

/-! ## Roles -/

/-- A key takes a value as a whole if it is in the role of a blob and accepts it. -/
theorem takesWhole_iff {key : String} {level : Nat} (context : Context) {value : Node} :
    TakesWhole key level value ↔
      (Role.of key level context).isBlob = true ∧ (Role.of key level context).Accepts value := by
  let x : Placed := ⟨level, context, ⟨key, {}, value⟩⟩
  have hrole : ∀ {k}, x.role = .keyword k ↔ key = k.text ∧ level ∈ k.depths :=
    Placed.role_eq_keyword_iff
  change TakesWhole key level value ↔ x.role.isBlob = true ∧ x.role.Accepts value
  constructor
  · intro h
    obtain ⟨k, mappingOnly, hkey, hlevel, hshape, hblob⟩ := h
    rw [hrole.2 ⟨hkey, hlevel⟩]
    simpa only [Role.isBlob, Role.Accepts, hshape, true_and] using hblob
  · intro h
    obtain ⟨hblob, haccepts⟩ := h
    cases hx : x.role with
    | step | other => simp [hx, Role.isBlob] at hblob
    | keyword k =>
      obtain ⟨hkey, hlevel⟩ := hrole.1 hx
      simp only [hx, Role.isBlob, Role.Accepts] at hblob haccepts
      cases hshape : k.shape with
      | blob mappingOnly =>
        exact ⟨k, mappingOnly, hkey, hlevel, hshape, by simpa only [hshape] using haccepts⟩
      | steps | scalar | scalars | names => simp [hshape] at hblob

theorem not_takesWhole {key : String} {level : Nat} {value : Node}
    (h : (Role.of key level .body).isBlob = false) : ¬ TakesWhole key level value := by
  rw [takesWhole_iff .body, h]
  simp

/-- A value that is taken as a whole is one object. -/
theorem valueTokens_of_takesWhole {m : Margins} {key : String} {p : Position} {level : Nat}
    {context : Context} {value : Node} (h : TakesWhole key level value) :
    valueTokens m key p level (Role.of key level context) value =
      .ok [⟨.object value.toPayload, value.position, level⟩] := by
  obtain ⟨hblob, haccepts⟩ := (takesWhole_iff context).1 h
  generalize Role.of key level context = role at hblob haccepts
  have hopens : role.opens = none := by
    cases hopens : role.opens with
    | none => rfl
    | some context => cases (isBlob_of_opens hopens).symm.trans hblob
  have hflat : flatTokens key p level role value =
      .ok [⟨.object value.toPayload, value.position, level⟩] := by
    rw [flatTokens_eq_ok_iff fun _ _ _ _ => hopens, ownTokens, if_pos hblob]
    exact ⟨haccepts, rfl⟩
  cases value with
  | mapping entries q flow => rw [valueTokens, hopens, hflat]
  | list | scalar | null => exact hflat

/-! ## Flat values -/

variable {O : Param → Param → Prop}

theorem refuseShape_matched {α : Type} {A : α → α → Prop} {key expected : String} {v v' : Node}
    (hkind : v.kindName = v'.kindName) (hp : P v.position v'.position) :
    Matched free (LayoutErrorLike P) A (refuseShape key expected v)
      (refuseShape key expected v') := by
  refine .error ⟨?_, hp⟩
  show LayoutCause.unexpectedShape key expected v.kindName = _
  rw [hkind]

theorem itemTokens_matched (key : String) (depth : Nat) {level : Nat} :
    (items : List Node) → {items' : List Node} → ItemsLike P R level items items' →
      Matched free (LayoutErrorLike P) (Likeness.mk P P O).TokensLike (itemTokens key depth items)
        (itemTokens key depth items')
  | [], _, h => by
    cases h
    exact .ok .nil
  | item :: items, _, h => by
    cases h with
    | cons hitem h =>
    have ih := itemTokens_matched key depth items h
    cases hitem with
    | scalar text quoted hp =>
      exact ih.bind fun _ _ hrest => .ok (.cons (.value text depth hp) hrest)
    | null hp => exact ih
    | mapping flow hp h => exact refuseShape_matched rfl hp
    | list hp h => exact refuseShape_matched rfl hp

theorem scalarTokens_matched {key : String} {depth level : Nat} {split : Bool} {v v' : Node}
    (h : NodeLike P R level v v') :
    Matched free (LayoutErrorLike P) (Likeness.mk P P O).TokensLike
      (scalarTokens key depth split v) (scalarTokens key depth split v') := by
  cases h with
  | null hp => exact .ok .nil
  | list hp h => exact itemTokens_matched key depth _ h
  | mapping flow hp h => exact refuseShape_matched rfl hp
  | scalar text quoted hp =>
    refine .ok (List.forall₂_map_left_iff.2 (List.forall₂_map_right_iff.2 ?_))
    exact List.forall₂_same.2 fun word _ => .value word depth hp

/-- A value that is no blob for a keyword of blobs is refused in the same way as one like it. -/
theorem blobTokens_matched {key : String} {p p' : Position} {depth level : Nat}
    {mappingOnly : Bool} {v v' : Node} (hp : P p p') (hblob : ¬ IsBlob mappingOnly v)
    (h : NodeLike P R level v v') :
    Matched free (LayoutErrorLike P) (Likeness.mk P P O).TokensLike
      (blobTokens key p depth mappingOnly v) (blobTokens key p' depth mappingOnly v') := by
  unfold blobTokens
  rw [← h.isEmpty_eq]
  split
  · exact .error ⟨rfl, hp⟩
  · next hempty =>
    cases h with
    | scalar text quoted hq => exact refuseShape_matched rfl hq
    | null => simp [Node.isEmpty] at hempty
    | mapping => simp_all [Node.isEmpty, IsBlob]
    | list hq h =>
      cases mappingOnly with
      | true => exact refuseShape_matched rfl hq
      | false => simp_all [Node.isEmpty, IsBlob]

theorem flatTokens_matched {key : String} {p p' : Position} {depth level : Nat} {role : Role}
    {v v' : Node} (hp : P p p')
    (hwhole : role.isBlob = true → ¬ role.Accepts v)
    (h : NodeLike P R level v v') :
    Matched free (LayoutErrorLike P) (Likeness.mk P P O).TokensLike
      (flatTokens key p depth role v) (flatTokens key p' depth role v') := by
  cases role with
  | other => exact scalarTokens_matched h
  | step =>
    cases h with
    | null hq => exact .ok .nil
    | mapping flow hq h => exact refuseShape_matched rfl hq
    | list hq h => exact refuseShape_matched rfl hq
    | scalar text quoted hq => exact refuseShape_matched rfl hq
  | keyword k =>
    simp only [flatTokens]
    cases hk : k.shape with
    | scalars => exact scalarTokens_matched h
    | names => exact scalarTokens_matched h
    | blob mappingOnly =>
      have hblob : ¬ IsBlob mappingOnly v := by
        simpa only [Role.isBlob, Role.Accepts, hk, forall_const] using hwhole
      exact blobTokens_matched hp hblob h
    | steps =>
      cases h with
      | null hq => exact .ok .nil
      | mapping flow hq h => exact refuseShape_matched rfl hq
      | list hq h => exact refuseShape_matched rfl hq
      | scalar text quoted hq => exact refuseShape_matched rfl hq
    | scalar =>
      cases h with
      | null hq => exact .ok .nil
      | mapping flow hq h => exact refuseShape_matched rfl hq
      | list hq h => exact refuseShape_matched rfl hq
      | scalar text quoted hq => exact .ok (.cons (.value text depth hq) .nil)

/-! ## Whole documents -/

/-- Blobs that are taken as a whole are handed on as `O` allows. -/
def HandsOn (R : Node → Node → Prop) (O : Param → Param → Prop) : Prop :=
  ∀ v v', R v v' → O (blobParam v) (blobParam v')

/-- Two entries have tokens that are alike if their keys are checked alike, and their values and the
entries behind them have such tokens. -/
theorem entryTokens_cons_matched {m m' : Margins} (hm : ChecksAlike free P m m') {level : Nat}
    {context : Context} {key : String} {p p' : Position} {v v' : Node}
    {entries entries' : List (Entry Node)} (hp : P p p')
    (hown : Matched free (LayoutErrorLike P) (Likeness.mk P P O).TokensLike
      (valueTokens m key p level (Role.of key level context) v)
      (valueTokens m' key p' level (Role.of key level context) v'))
    (hrest : Matched free (LayoutErrorLike P) (Likeness.mk P P O).TokensLike
      (entryTokens m level context entries) (entryTokens m' level context entries')) :
    Matched free (LayoutErrorLike P) (Likeness.mk P P O).TokensLike
      (entryTokens m level context (⟨key, p, v⟩ :: entries))
      (entryTokens m' level context (⟨key, p', v'⟩ :: entries')) := by
  have hkey : (Likeness.mk P P O).TokenLike
      ⟨(Role.of key level context).tokenKind key, p, level⟩
      ⟨(Role.of key level context).tokenKind key, p', level⟩ := by
    cases Role.of key level context with
    | keyword k => exact .keyword k level hp
    | step | other => exact .identifier key level hp
  exact (hm key p p' level hp).bind fun _ _ _ => hown.bind fun _ _ hown =>
    hrest.bind fun _ _ hrest => .ok (.cons hkey (List.rel_append hown hrest))

mutual

/-- Mappings that are alike have tokens that are alike, or are refused for one cause. -/
theorem entryTokens_matched {m m' : Margins} (hm : ChecksAlike free P m m') (hO : HandsOn R O)
    (level : Nat) (context : Context) :
    (entries : List (Entry Node)) → {entries' : List (Entry Node)} →
      EntriesLike P R level entries entries' →
      Matched free (LayoutErrorLike P) (Likeness.mk P P O).TokensLike
        (entryTokens m level context entries) (entryTokens m' level context entries')
  | [], _, h => by
    cases h
    exact .ok .nil
  | ⟨key, p, v⟩ :: entries, _, h => by
    cases h with
    | whole hp hv hwhole hwhole' h =>
      refine entryTokens_cons_matched hm hp ?_ (entryTokens_matched hm hO level context entries h)
      rw [valueTokens_of_takesWhole hwhole, valueTokens_of_takesWhole hwhole']
      exact .ok (.cons (.object level (hO _ _ hv)) .nil)
    | deeper hp hv hwhole h =>
      refine entryTokens_cons_matched hm hp ?_ (entryTokens_matched hm hO level context entries h)
      rw [takesWhole_iff context, not_and] at hwhole
      exact valueTokens_matched hm hO key hp level _ v hv hwhole

/-- Values that are alike have tokens that are alike, or are refused for one cause. -/
theorem valueTokens_matched {m m' : Margins} (hm : ChecksAlike free P m m') (hO : HandsOn R O)
    (key : String) {p p' : Position} (hp : P p p') (level : Nat) (role : Role) :
    (v : Node) → {v' : Node} → NodeLike P R (level + 1) v v' →
      (role.isBlob = true → ¬ role.Accepts v) →
      Matched free (LayoutErrorLike P) (Likeness.mk P P O).TokensLike
        (valueTokens m key p level role v) (valueTokens m' key p' level role v')
  | .mapping entries q flow, _, h, hwhole => by
    cases h with
    | mapping flow hq h =>
      rw [valueTokens, valueTokens]
      cases role.opens with
      | none => exact flatTokens_matched hp hwhole (.mapping flow hq h)
      | some context =>
        dsimp only
        rw [h.isEmpty_eq]
        split
        · exact .error ⟨rfl, hq⟩
        · exact entryTokens_matched hm hO (level + 1) context entries h
  | .list items q, _, h, hwhole => by
    cases h with
    | list hq h => exact flatTokens_matched hp hwhole (.list hq h)
  | .scalar text quoted q, _, h, hwhole => by
    cases h with
    | scalar _ _ hq =>
      have hlike : NodeLike P R (level + 1) _ _ := .scalar text quoted hq
      exact flatTokens_matched hp hwhole hlike
  | .null q, _, h, hwhole => by
    cases h with
    | null hq =>
      have hlike : NodeLike P R (level + 1) _ _ := .null hq
      exact flatTokens_matched hp hwhole hlike

end

/-- **Documents that are alike have tokens that are alike, or are refused for one cause.** The
margins need to allow the same if they are taken from keys whose places `P` allows. -/
theorem tokensOf_matched {unit unit' : Nat}
    (hm : ∀ p p', P p p' →
      ChecksAlike free P ⟨p.column, max unit 1⟩ ⟨p'.column, max unit' 1⟩)
    (hO : HandsOn R O) {root root' : Node} (h : NodeLike P R 0 root root') :
    Matched free (LayoutErrorLike P) (Likeness.mk P P O).TokensLike (tokensOf unit root)
      (tokensOf unit' root') := by
  cases h with
  | null hp => exact .ok .nil
  | list hp h => exact refuseShape_matched rfl hp
  | scalar text quoted hp => exact refuseShape_matched rfl hp
  | mapping flow hp h =>
    unfold tokensOf
    cases flow with
    | true => exact .error ⟨rfl, hp⟩
    | false =>
      have hentries := h
      cases h with
      | nil => exact .ok .nil
      | whole hq => exact entryTokens_matched (hm _ _ hq) hO 0 .body _ hentries
      | deeper hq => exact entryTokens_matched (hm _ _ hq) hO 0 .body _ hentries

end TestScript.Script
