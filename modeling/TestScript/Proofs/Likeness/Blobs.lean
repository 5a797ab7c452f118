import TestScript.Proofs.Grammar.Objects
import TestScript.Proofs.Likeness.Layout
import TestScript.Proofs.Likeness.Reading

/-!
# What stands in a blob matters to nothing else

A blob is taken as a whole: no key in it is looked at, however it is spelled and wherever it stands.
If blobs of a document are exchanged for others, then its tokens are the same but for the objects of
these blobs, and so is the script, or the error (`blobs_matched`). An error may only be about an
object if the tokens end with it.
-/

namespace TestScript

open Document (Node Entry)

/-- All is the same but for the objects of blobs that are exchanged. -/
def Likeness.ofBlobs (exchanged : Node → Node → Prop) : Likeness :=
  ⟨Eq, Eq, fun a a' =>
    a = a' ∨ ∃ v v', exchanged v v' ∧ a = Script.blobParam v ∧ a' = Script.blobParam v'⟩

namespace Script

/-- Two documents are the same but for blobs that are exchanged, each of which its key takes as a
whole. -/
def SameButBlobs (exchanged : Node → Node → Prop) (root root' : Node) : Prop :=
  NodeLike Eq (fun v v' => v = v' ∨ exchanged v v') 0 root root'

variable {exchanged : Node → Node → Prop}

theorem handsOn_ofBlobs :
    HandsOn (fun v v' => v = v' ∨ exchanged v v') (Likeness.ofBlobs exchanged).object := by
  intro v v' h
  rcases h with rfl | h
  · exact .inl rfl
  · exact .inr ⟨v, v', h, rfl, rfl⟩

/-! ## Objects among the tokens of a document -/

theorem Placed.opensBlob_keyToken {x : Placed} (h : x.role.isBlob = true) :
    x.keyToken.OpensBlob := by
  unfold Token.OpensBlob keyToken
  cases hrole : x.role with
  | step | other => simp [hrole, Role.isBlob] at h
  | keyword k =>
    rw [hrole, Role.isBlob] at h
    split at h
    · next mappingOnly hshape => exact ⟨k, mappingOnly, rfl, hshape⟩
    · cases h

/-- An object is the only token of its value, and the value is a blob. -/
theorem isBlob_of_ownTokens_eq {role : Role} {level : Nat} {value : Node} {w r : List Token}
    {t : Token} (h : ownTokens role level value = w ++ t :: r) (ht : t.IsObject) :
    role.isBlob = true ∧ w = [] := by
  obtain ⟨payload, ht⟩ := ht
  rw [ownTokens] at h
  split at h
  · next hblob => exact ⟨hblob, by cases w <;> simp_all⟩
  · have hmem : t ∈ w ++ t :: r := List.mem_append_right w List.mem_cons_self
    rw [← h] at hmem
    obtain ⟨text, -, rfl⟩ := List.mem_map.1 hmem
    cases ht

/-- An object of a document stands right behind the keyword of its blob. -/
theorem exists_opensBlob {xs : List Placed} {w r : List Token} {t : Token}
    (h : xs.flatMap Placed.tokens = w ++ t :: r) (ht : t.IsObject) :
    ∃ u k, w = u ++ [k] ∧ k.OpensBlob := by
  induction xs generalizing w with
  | nil => simp at h
  | cons x xs ih =>
    rw [List.flatMap_cons] at h
    rcases List.append_eq_append_iff.1 h with ⟨c, rfl, hrest⟩ | ⟨_ | ⟨t', c⟩, hx, hr⟩
    -- The object is a token of another entry, or the first token of one: but that is a key.
    · obtain ⟨u, k, rfl, hk⟩ := ih hrest
      exact ⟨x.tokens ++ u, k, by simp, hk⟩
    · obtain ⟨u, k, hnil, -⟩ := ih (w := []) hr.symm
      simp at hnil
    · obtain rfl : t = t' := (List.cons.inj hr).1
      cases w with
      | nil =>
        obtain rfl : x.keyToken = t := (List.cons.inj hx).1
        obtain ⟨payload, ht⟩ := ht
        have hkey := x.isKey_keyToken
        simp [Token.isKey, ht] at hkey
      | cons k w =>
        obtain rfl : x.keyToken = k := (List.cons.inj hx).1
        obtain ⟨hblob, rfl⟩ := isBlob_of_ownTokens_eq (List.cons.inj hx).2 ht
        exact ⟨[], _, rfl, Placed.opensBlob_keyToken hblob⟩

/-! ## Errors about objects -/

theorem Token.isObject_of_describe_eq {t : Token} (h : t.kind.describe = "object") :
    t.IsObject := by
  have hhead := congrArg (fun s : String => s.toList.head?) h
  unfold Token.IsObject
  cases hk : t.kind with
  | object payload => exact ⟨payload, rfl⟩
  | keyword | identifier | value => simp [hk, Token.Kind.describe, String.join] at hhead

/-- No object of a document is unexpected. -/
theorem not_isObject_of_unexpectedToken {unit : Nat} {root : Node} {ts : List Token} {t : Token}
    {expected : List String} {p : Position} (hts : tokensOf unit root = .ok ts)
    (h : ofTokens ts = .error ⟨.unexpectedToken t.kind.describe expected, p⟩) : ¬ t.IsObject := by
  intro ⟨payload, ht⟩
  obtain ⟨-, -, hflat⟩ := tokensOf_eq_ok_iff.1 hts
  obtain ⟨w, r, refused, rfl, hviable, hstop, -, hout⟩ := ofTokens_run ts
  cases hout with
  | accepted s hr _ hok =>
    subst hr
    rw [List.append_nil, hok] at h
    cases h
  | fault _ hfault =>
    have he := Except.error.inj ((hfault r rfl).symm.trans h)
    cases r with
    | nil => cases he
    | cons t' r =>
      have hfound : t'.kind.describe = t.kind.describe :=
        (GrammarCause.unexpectedToken.inj (congrArg GrammarError.cause he)).1
      have ht' := Token.isObject_of_describe_eq (hfound.trans (by rw [ht]; rfl))
      obtain ⟨u, k, rfl, hk⟩ := exists_opensBlob hflat.symm ht'
      exact hstop t' rfl (Form.takesObjects_script.next hviable hk ht')
  | invalid k t' text _ _ _ _ hinvalid =>
    cases Except.error.inj ((hinvalid r rfl).symm.trans h)

/-- Two errors are the same, unless both are about the end behind a blob that is exchanged: then
each stands at its own blob. -/
inductive BlobErrorLike (exchanged : Node → Node → Prop) (ts ts' : List Token) :
    GrammarError → GrammarError → Prop
  | same (e : GrammarError) : BlobErrorLike exchanged ts ts' e e
  | atEnd (expected : List String) {a a' : Param} {d : Nat}
    (ha : (Likeness.ofBlobs exchanged).object a a')
    (h : ts.getLast? = some ⟨.object a.object, a.position, d⟩)
    (h' : ts'.getLast? = some ⟨.object a'.object, a'.position, d⟩) :
    BlobErrorLike exchanged ts ts' ⟨.unexpectedEnd expected, a.position⟩
      ⟨.unexpectedEnd expected, a'.position⟩

theorem position_eq_of_not_isObject {t t' : Token} (h : (Likeness.ofBlobs exchanged).TokenLike t t')
    (ht : ¬ t.IsObject) : t.position = t'.position := by
  cases h with
  | keyword k d h | identifier text d h | value text d h => exact h
  | object d h => exact absurd ⟨_, rfl⟩ ht

theorem blobErrorLike_of_errorsLike {unit : Nat} {root : Node} {ts ts' : List Token}
    {e e' : GrammarError} (hts : tokensOf unit root = .ok ts)
    (hlike : (Likeness.ofBlobs exchanged).TokensLike ts ts') (he : ofTokens ts = .error e)
    (h : ErrorsLike ts ts' e e') : BlobErrorLike exchanged ts ts' e e' := by
  cases h with
  | token expected ht =>
    rw [← position_eq_of_not_isObject (List.forall₂_zip hlike ht)
      (not_isObject_of_unexpectedToken hts he)]
    exact .same _
  | value clause reason hkind ht =>
    rw [← position_eq_of_not_isObject (List.forall₂_zip hlike ht)]
    · exact .same _
    · rintro ⟨payload, hobject⟩
      cases hkind.symm.trans hobject
  | atEnd expected =>
    have hlast := rel_getLast? hlike
    unfold lastPosition
    generalize hx : ts.getLast? = x at hlast
    generalize hx' : ts'.getLast? = x' at hlast
    cases hlast with
    | none => exact .same _
    | @some t t' ht =>
      cases ht with
      | object d ha => exact .atEnd expected ha hx hx'
      | keyword k d hp | identifier text d hp | value text d hp =>
        obtain rfl := hp
        exact .same _

/-- **What stands in blobs matters to nothing else.** Exchanging blobs of a document for others
leaves the error of its layout as it is, or all tokens but the objects of these blobs, and then the
script but for these objects, or the error of its grammar but for its place if that is the last
object. -/
theorem blobs_matched (unit : Nat) {root root' : Node} (h : SameButBlobs exchanged root root') :
    Matched False (· = ·)
      (fun ts ts' => (Likeness.ofBlobs exchanged).TokensLike ts ts' ∧
        Matched False (BlobErrorLike exchanged ts ts') (Likeness.ofBlobs exchanged).ScriptLike
          (ofTokens ts) (ofTokens ts'))
      (tokensOf unit root) (tokensOf unit root') := by
  have hm : ∀ p p' : Position, p = p' →
      ChecksAlike False Eq ⟨p.column, max unit 1⟩ ⟨p'.column, max unit 1⟩ := by
    rintro p - rfl key q - level rfl
    exact .refl (fun e => ⟨rfl, rfl⟩) (fun _ => trivial) _
  refine (tokensOf_matched hm handsOn_ofBlobs h).mono_of_eq ?_ fun ts ts' hts _ hlike => ⟨hlike, ?_⟩
  · intro e e' _ _ he
    cases e
    cases e'
    obtain ⟨rfl, rfl⟩ := he
    rfl
  · exact (ofTokens_matched hlike).mono_of_eq
      (fun e e' he _ => blobErrorLike_of_errorsLike hts hlike he) fun _ _ _ _ hs => hs

/-- A script of one step with an input. -/
def scriptWithInput (input : Node) : Node :=
  .mapping
    [⟨"issue", ⟨0, 0⟩, .scalar "t" false ⟨0, 7⟩⟩,
      ⟨"steps", ⟨1, 0⟩, .mapping
        [⟨"s", ⟨2, 2⟩, .mapping [⟨"input", ⟨3, 4⟩, input⟩] ⟨3, 4⟩ false⟩] ⟨2, 2⟩ false⟩]
    ⟨0, 0⟩ false

theorem sameButBlobs_scriptWithInput {input input' : Node} (h : exchanged input input')
    (hinput : IsBlob true input) (hinput' : IsBlob true input') :
    SameButBlobs exchanged (scriptWithInput input) (scriptWithInput input') := by
  have hwhole : ∀ {v}, IsBlob true v → TakesWhole "input" 2 v := fun hv =>
    ⟨.input, true, rfl, by decide, rfl, hv⟩
  refine .mapping false rfl (.deeper rfl (.scalar "t" false rfl) (not_takesWhole (by decide)) ?_)
  refine .deeper rfl (.mapping false rfl ?_) (not_takesWhole (by decide)) .nil
  refine .deeper rfl (.mapping false rfl ?_) (not_takesWhole (by decide)) .nil
  exact .whole rfl (.inr h) (hwhole hinput) (hwhole hinput') .nil

/-- An inline mapping that holds a number. -/
def plainInput : Node :=
  .mapping [⟨"a", ⟨3, 12⟩, .scalar "1" false ⟨3, 15⟩⟩] ⟨3, 11⟩ true

/-- A mapping whose keys are spelled like keywords, in columns of no level. -/
def keywordInput : Node :=
  .mapping [⟨"steps", ⟨4, 7⟩, .mapping [⟨"use", ⟨4, 15⟩, .null ⟨4, 18⟩⟩] ⟨4, 14⟩ true⟩] ⟨4, 7⟩ false

/-- The one input is exchanged for the other. -/
def OtherInput (v v' : Node) : Prop :=
  v = plainInput ∧ v' = keywordInput

theorem blobs_matched_inputs :
    SameButBlobs OtherInput (scriptWithInput plainInput) (scriptWithInput keywordInput) ∧
      ∃ ts ts' s s', tokensOf 2 (scriptWithInput plainInput) = .ok ts ∧
        tokensOf 2 (scriptWithInput keywordInput) = .ok ts' ∧ ofTokens ts = .ok s ∧
        ofTokens ts' = .ok s' ∧ (Likeness.ofBlobs OtherInput).ScriptLike s s' := by
  have hsame : SameButBlobs OtherInput (scriptWithInput plainInput)
      (scriptWithInput keywordInput) :=
    sameButBlobs_scriptWithInput ⟨rfl, rfl⟩ (List.cons_ne_nil _ _) (List.cons_ne_nil _ _)
  have h := blobs_matched 2 hsame
  have hts : tokensOf 2 (scriptWithInput plainInput) = .ok _ := rfl
  have hts' : tokensOf 2 (scriptWithInput keywordInput) = .ok _ := rfl
  rw [hts, hts'] at h
  exact ⟨hsame, _, _, _, _, hts, hts', rfl, rfl, h.of_ok.2.of_ok⟩

end Script
end TestScript
