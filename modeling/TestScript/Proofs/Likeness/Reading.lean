import TestScript.Proofs.Likeness.Script
import TestScript.Proofs.Grammar.Acceptance

/-!
# Lists of tokens that are alike are read alike

No production looks at a place or into a payload. So two lists of tokens that differ in these only
are read in lockstep: at each step either both runs take a token, or both turn it down, or both
fail there. One lemma for each way of building productions (`Respects.bind`, `respects_accept`,
`respects_many`) carries this over to whole scripts (`Likeness.ofTokens_matched`).
-/

namespace TestScript.Script.Grammar

open TestScript (Likeness Matched)

variable {α β η σ : Type}

/-- The same is left of two lists of tokens; what `T` says holds of any two tokens in one place. -/
structure LookaheadLike (T : Token → Token → Prop) (s s' : Lookahead) : Prop where
  rest : List.Forall₂ T s.rest s'.rest
  refused_eq : s.refused = s'.refused

/-- Two errors have one cause and are about tokens in one place. Of two errors at the end this
does not say where they stand. -/
inductive FaultLike (T : Token → Token → Prop) : GrammarError → GrammarError → Prop
  | token {t t' : Token} (expected : List String) (h : T t t') :
    FaultLike T ⟨.unexpectedToken t.kind.describe expected, t.position⟩
      ⟨.unexpectedToken t.kind.describe expected, t'.position⟩
  | value {t t' : Token} {text : String} (clause reason : String) (ht : t.kind = .value text)
    (h : T t t') :
    FaultLike T ⟨.invalidValue clause text reason, t.position⟩
      ⟨.invalidValue clause text reason, t'.position⟩
  | atEnd (expected : List String) (p p' : Position) :
    FaultLike T ⟨.unexpectedEnd expected, p⟩ ⟨.unexpectedEnd expected, p'⟩

/-- In front of the same tokens two productions fail alike, or read the same and give what is
related by `A`. -/
def Respects (T : Token → Token → Prop) (A : α → α → Prop) (p p' : Production α) : Prop :=
  ∀ s s', LookaheadLike T s s' →
    Matched False (FaultLike T) (fun x x' => A x.1 x'.1 ∧ LookaheadLike T x.2 x'.2) (p s) (p' s')

variable {T : Token → Token → Prop} {A : α → α → Prop} {B : β → β → Prop}

namespace Respects

theorem pure {a a' : α} (h : A a a') : Respects T A (Pure.pure a) (Pure.pure a') :=
  fun _ _ hs => .ok ⟨h, hs⟩

theorem bind {p p' : Production α} {f f' : α → Production β} (hp : Respects T A p p')
    (hf : ∀ a a', A a a' → Respects T B (f a) (f' a')) : Respects T B (p >>= f) (p' >>= f') :=
  fun s s' hs => (hp s s' hs).bind fun x x' h => hf x.1 x'.1 h.1 x.2 x'.2 h.2

theorem map {p p' : Production α} {g g' : α → β} (hp : Respects T A p p')
    (h : ∀ a a', A a a' → B (g a) (g' a')) :
    Respects T B (p >>= fun a => Pure.pure (g a)) (p' >>= fun a => Pure.pure (g' a)) :=
  hp.bind fun a a' ha => .pure (h a a' ha)

theorem andThen {p p' : Production (Option α)} {f f' : α → Production β}
    (hp : Respects T (Option.Rel A) p p') (hf : ∀ a a', A a a' → Respects T B (f a) (f' a')) :
    Respects T (Option.Rel B) (Grammar.andThen p f) (Grammar.andThen p' f') := by
  refine hp.bind fun a a' ha => ?_
  cases ha with
  | some ha => exact (hf _ _ ha).map fun _ _ h => .some h
  | none => exact .pure .none

theorem orElse {p p' q q' : Production (Option α)} (hp : Respects T (Option.Rel A) p p')
    (hq : Respects T (Option.Rel A) q q') :
    Respects T (Option.Rel A) (Grammar.orElse p q) (Grammar.orElse p' q') := by
  refine hp.bind fun a a' ha => ?_
  cases ha with
  | some ha => exact .pure (.some ha)
  | none => exact hq

end Respects

/-! ## Repetition -/

/-- A repetition is bounded by the number of tokens, and that is the same on both sides. -/
theorem respects_manyUpTo {p p' : Production (Option α)} (hp : Respects T (Option.Rel A) p p') :
    ∀ {bound bound' : List Token}, bound.length = bound'.length →
      Respects T (List.Forall₂ A) (manyUpTo p bound) (manyUpTo p' bound')
  | [], [], _ => hp.map fun a a' ha => by cases ha <;> simp_all
  | _ :: bound, _ :: bound', h => by
    refine hp.bind fun a a' ha => ?_
    cases ha with
    | none => exact .pure .nil
    | some ha =>
      exact (respects_manyUpTo hp (Nat.succ.inj h)).map fun _ _ hrest => .cons ha hrest

theorem respects_many {p p' : Production (Option α)} (hp : Respects T (Option.Rel A) p p') :
    Respects T (List.Forall₂ A) (many p) (many p') :=
  fun s s' hs => respects_manyUpTo hp hs.rest.length_eq s s' hs

/-! ## One token -/

variable {L : Likeness} (hT : ∀ t t', T t t' → L.TokenLike t t')

include hT in
theorem respects_unexpected : Respects T A unexpected unexpected := by
  intro s s' hs
  obtain ⟨rest, refused, last⟩ := s
  obtain ⟨rest', refused', last'⟩ := s'
  obtain rfl : refused = refused' := hs.refused_eq
  cases hs.rest with
  | nil => exact .error (.atEnd refused last last')
  | @cons t t' r r' ht _ =>
    refine .error ?_
    show FaultLike T _ ⟨.unexpectedToken t'.kind.describe refused, t'.position⟩
    rw [← (hT t t' ht).describe_eq]
    exact .token refused ht

include hT in
theorem respects_required {p p' : Production (Option α)} (hp : Respects T (Option.Rel A) p p') :
    Respects T A (required p) (required p') := by
  refine hp.bind fun a a' ha => ?_
  cases ha with
  | some ha => exact .pure ha
  | none => exact respects_unexpected hT

theorem refuse_like {terminal : String} {s s' : Lookahead} (h : LookaheadLike T s s') :
    LookaheadLike T (refuse terminal s) (refuse terminal s') := by
  unfold refuse
  rw [h.refused_eq]
  split
  · exact h
  · exact ⟨h.rest, rfl⟩

theorem respects_accept {terminal : String} {meaning? meaning?' : Token → Option α}
    (h : ∀ t t', T t t' → Option.Rel A (meaning? t) (meaning?' t')) :
    Respects T (Option.Rel A) (accept terminal meaning?) (accept terminal meaning?') := by
  intro s s' hs
  obtain ⟨rest, refused, last⟩ := s
  obtain ⟨rest', refused', last'⟩ := s'
  cases hs.rest with
  | nil => exact .ok ⟨.none, refuse_like hs⟩
  | @cons t t' r r' ht hr =>
    have hm := h t t' ht
    generalize hx : meaning? t = x at hm
    generalize hx' : meaning?' t' = x' at hm
    cases hm with
    | some ha =>
      rw [accept_of_some hx, accept_of_some hx']
      exact .ok ⟨.some ha, hr, rfl⟩
    | none =>
      rw [accept_of_none (by simpa using hx), accept_of_none (by simpa using hx')]
      exact .ok ⟨.none, refuse_like hs⟩

section
include hT

theorem respects_keyword (k : Keyword) (d : Nat) :
    Respects T (Option.Rel L.key) (keyword k d) (keyword k d) := by
  refine respects_accept fun t t' ht => ?_
  cases hT t t' ht with
  | keyword k' d' h =>
    dsimp only
    split
    · exact .some h
    · exact .none
  | identifier | value | object => exact .none

theorem respects_identifier (d : Nat) :
    Respects T (Option.Rel (Likeness.SameAt L.key Prod.fst Prod.snd)) (identifier d)
      (identifier d) := by
  refine respects_accept fun t t' ht => ?_
  cases hT t t' ht with
  | identifier text d' h =>
    dsimp only
    split
    · exact .some ⟨rfl, h⟩
    · exact .none
  | keyword | value | object => exact .none

/-- What two tokens give that are the same value: its text, and where they stand. -/
def ValueLike (T : Token → Token → Prop) (x x' : String × Position) : Prop :=
  ∃ t t', T t t' ∧ t.kind = .value x.1 ∧ x = (x.1, t.position) ∧ x' = (x.1, t'.position)

omit hT in
theorem ValueLike.text_eq {x x' : String × Position} (h : ValueLike T x x') : x.1 = x'.1 := by
  obtain ⟨t, t', -, -, -, h⟩ := h
  exact (congrArg Prod.fst h).symm

theorem ValueLike.sameAt {x x' : String × Position} (h : ValueLike T x x') :
    Likeness.SameAt L.value Prod.fst Prod.snd x x' := by
  refine ⟨h.text_eq, ?_⟩
  obtain ⟨t, t', ht, hkind, hx, hx'⟩ := h
  rw [hx, hx']
  cases hT t t' ht with
  | value text d h => exact h
  | keyword | identifier | object => cases hkind

theorem respects_value : Respects T (Option.Rel (ValueLike T)) value value := by
  refine respects_accept fun t t' ht => ?_
  have hlike := hT t t' ht
  cases hlike with
  | value text d h => exact .some ⟨_, _, ht, rfl, rfl, rfl⟩
  | keyword | identifier | object => exact .none

theorem respects_object : Respects T (Option.Rel L.object) object object := by
  refine respects_accept fun t t' ht => ?_
  cases hT t t' ht with
  | object d h => exact .some h
  | keyword | identifier | value => exact .none

theorem respects_values : Respects T (· = ·) values values := by
  refine (respects_many (respects_value hT)).map fun xs xs' h => ?_
  induction h with
  | nil => rfl
  | cons hx _ ih => rw [List.map_cons, List.map_cons, hx.text_eq, ih]

/-! ## Clauses -/

theorem respects_clause {k : Keyword} {d : Nat} {content content' : Position → Production α}
    (h : ∀ p p', L.key p p' → Respects T A (content p) (content' p')) :
    Respects T (Option.Rel A) (clause k d content) (clause k d content') := by
  rw [Form.clause_eq_andThen, Form.clause_eq_andThen]
  exact (respects_keyword hT k d).andThen h

omit hT in
theorem rel_filter {isEmpty : α → Bool} {a a' : Option α}
    (hempty : ∀ a a', A a a' → isEmpty a = isEmpty a') (h : Option.Rel A a a') :
    Option.Rel A (a.filter (!isEmpty ·)) (a'.filter (!isEmpty ·)) := by
  cases h with
  | none => exact .none
  | @some a a' h =>
    rw [Option.filter_some, Option.filter_some, hempty a a' h]
    split
    · exact .some h
    · exact .none

theorem respects_markers (d : Nat) :
    Respects T (Option.Rel L.MarkersLike) (markers d) (markers d) := by
  have hclause : Respects T (Option.Rel L.MarkersLike)
      (clause .markers d fun p => return (⟨← values, p⟩ : Markers))
      (clause .markers d fun p => return (⟨← values, p⟩ : Markers)) :=
    respects_clause hT fun _ _ hp => (respects_values hT).map fun _ _ h => ⟨h, hp⟩
  refine hclause.map fun _ _ => rel_filter fun a a' ha => ?_
  rw [ha.1]

theorem respects_skipEnv (d : Nat) :
    Respects T (Option.Rel L.SkipEnvLike) (skipEnv d) (skipEnv d) :=
  respects_clause hT fun _ _ hp => (respects_required hT (respects_value hT)).map fun _ _ h =>
    ⟨h.text_eq, hp⟩

theorem respects_skip (d : Nat) : Respects T (Option.Rel L.SkipLike) (skip d) (skip d) :=
  respects_clause hT fun _ _ hp => (respects_values hT).map fun _ _ h => ⟨by rw [h], hp⟩

theorem respects_retryCount : Respects T (· = ·) retryCount retryCount := by
  refine (respects_required hT (respects_value hT)).bind fun x x' h => ?_
  obtain ⟨t, t', ht, hkind, hx, rfl⟩ := h
  rw [hx]
  dsimp only
  cases retries? x.1 with
  | some n => exact .pure rfl
  | none => exact fun _ _ _ => .error (.value _ _ hkind ht)

theorem respects_flaky (d : Nat) : Respects T (Option.Rel L.FlakyLike) (flaky d) (flaky d) := by
  rw [flaky_eq]
  exact respects_clause hT fun _ _ hp => (respects_retryCount hT).map fun _ _ h => ⟨h, hp⟩

theorem respects_parameterize (d : Nat) :
    Respects T (Option.Rel L.ParameterizeLike) (parameterize d) (parameterize d) := by
  have hrepeated : ∀ k mode, Respects T (Option.Rel L.ParameterizeLike)
      (clause k d fun p => do
        let payload ← required object
        return (⟨mode, payload, p⟩ : Parameterize))
      (clause k d fun p => do
        let payload ← required object
        return (⟨mode, payload, p⟩ : Parameterize)) := fun _ _ =>
    respects_clause hT fun _ _ hp => (respects_required hT (respects_object hT)).map fun _ _ h =>
      ⟨rfl, h, hp⟩
  rw [Form.parameterize_eq]
  exact (hrepeated .parameterize .parameterize).orElse (hrepeated .foreach .foreach)

theorem respects_use (d : Nat) : Respects T (Option.Rel L.UseLike) (use d) (use d) :=
  respects_clause hT fun _ _ hp => (respects_required hT (respects_value hT)).map fun _ _ h =>
    ⟨h.text_eq, hp⟩

theorem respects_params (k : Keyword) (d : Nat) :
    Respects T (Option.Rel (List.Forall₂ L.object)) (params k d) (params k d) :=
  respects_clause hT fun _ _ _ => (respects_required hT (respects_object hT)).bind fun _ _ h =>
    (respects_many (respects_object hT)).map fun _ _ hrest => .cons h hrest

/-! ## Steps -/

theorem respects_step {H : η → η → Prop} {hooks : Nat → Production η} (d : Nat)
    (hhooks : Respects T H (hooks (d + 1)) (hooks (d + 1))) :
    Respects T (Option.Rel (L.StepLike H)) (step hooks d) (step hooks d) := by
  rw [Form.step_eq]
  refine (respects_identifier hT d).andThen fun name name' hname => ?_
  refine (respects_skipEnv hT _).bind fun _ _ hskipEnv => ?_
  refine (respects_skip hT _).bind fun _ _ hskip => ?_
  refine (respects_markers hT _).bind fun _ _ hmarkers => ?_
  refine (respects_flaky hT _).bind fun _ _ hflaky => ?_
  refine (respects_parameterize hT _).bind fun _ _ hparameterize => ?_
  refine hhooks.bind fun _ _ hhooks => ?_
  refine (respects_use hT _).bind fun _ _ huse => ?_
  refine (respects_params hT _ _).bind fun _ _ hinput => ?_
  refine (respects_params hT _ _).map fun _ _ houtput => ?_
  exact ⟨hname.1, hskipEnv, hskip, hmarkers, hflaky, hparameterize, hhooks, huse, hinput,
    houtput, hname.2⟩

omit hT in
theorem isEmpty_eq_of_forall₂ {S : σ → σ → Prop} {ss ss' : List σ} (h : List.Forall₂ S ss ss') :
    ss.isEmpty = ss'.isEmpty := by
  cases h <;> rfl

theorem respects_hooksOf {S : σ → σ → Prop} {step : Nat → Production (Option σ)} (k : Keyword)
    (d : Nat) (hstep : Respects T (Option.Rel S) (step (d + 1)) (step (d + 1))) :
    Respects T (Option.Rel (L.HooksLike S)) (hooksOf step k d) (hooksOf step k d) := by
  have hclause : Respects T (Option.Rel (L.HooksLike S))
      (clause k d fun p => return (⟨← many (step (d + 1)), p⟩ : Hooks σ))
      (clause k d fun p => return (⟨← many (step (d + 1)), p⟩ : Hooks σ)) :=
    respects_clause hT fun _ _ hp => (respects_many hstep).map fun _ _ h => ⟨h, hp⟩
  exact hclause.map fun _ _ => rel_filter fun _ _ ha => isEmpty_eq_of_forall₂ ha.steps

theorem respects_hookStep (d : Nat) :
    Respects T (Option.Rel L.HookStepLike) (hookStep d) (hookStep d) :=
  respects_step hT d (.pure trivial)

theorem respects_ownHooks (d : Nat) : Respects T L.OwnHooksLike (ownHooks d) (ownHooks d) :=
  (respects_hooksOf hT .before d (respects_hookStep hT _)).bind fun _ _ hbefore =>
    (respects_hooksOf hT .after d (respects_hookStep hT _)).map fun _ _ hafter => ⟨hbefore, hafter⟩

theorem respects_mainStep (d : Nat) :
    Respects T (Option.Rel L.MainStepLike) (mainStep d) (mainStep d) :=
  respects_step hT d (respects_ownHooks hT _)

/-! ## Scripts -/

theorem respects_body : Respects T L.ScriptLike body body := by
  refine (respects_required hT (respects_keyword hT .issue 0)).bind fun _ _ hp => ?_
  refine (respects_required hT (respects_value hT)).bind fun _ _ hissue => ?_
  refine (respects_markers hT 0).bind fun _ _ hmarkers => ?_
  refine (respects_hooksOf hT .before 0 (respects_mainStep hT 1)).bind fun _ _ hbefore => ?_
  refine (respects_hooksOf hT .after 0 (respects_mainStep hT 1)).bind fun _ _ hafter => ?_
  refine (respects_required hT (respects_keyword hT .steps 0)).bind fun _ _ _ => ?_
  refine (respects_required hT (respects_mainStep hT 1)).bind fun _ _ hfirst => ?_
  refine (respects_many (respects_mainStep hT 1)).map fun _ _ hothers => ?_
  exact ⟨hissue.sameAt hT, hmarkers, hbefore, hafter, .cons hfirst hothers, hp⟩

theorem respects_atEnd {A : Script → Script → Prop} {s s' : Script} (h : A s s') :
    Respects T A (atEnd s) (atEnd s') := by
  intro l l' hl
  obtain ⟨rest, refused, last⟩ := l
  obtain ⟨rest', refused', last'⟩ := l'
  cases hl.rest with
  | nil => exact .ok ⟨h, hl⟩
  | cons ht hr =>
    rw [atEnd_cons, atEnd_cons]
    exact respects_unexpected hT (A := A) _ _ hl

theorem respects_script : Respects T L.ScriptLike script script := by
  rw [script_eq]
  exact (respects_body hT).bind fun _ _ h => respects_atEnd hT h

end
end TestScript.Script.Grammar

namespace TestScript.Script

/-- An error at the end stands at the last token. -/
theorem position_of_unexpectedEnd {ts : List Token} {expected : List String} {p : Position}
    (h : ofTokens ts = .error ⟨.unexpectedEnd expected, p⟩) : p = lastPosition {} ts := by
  obtain ⟨w, r, refused, rfl, -, -, -, hout⟩ := ofTokens_run ts
  cases hout with
  | accepted s hr _ hok =>
    subst hr
    rw [List.append_nil, hok] at h
    cases h
  | fault _ hfault =>
    have he := Except.error.inj ((hfault r rfl).symm.trans h)
    cases r with
    | nil =>
      rw [List.append_nil]
      exact (congrArg GrammarError.position he).symm
    | cons t r => cases he
  | invalid k t text _ _ _ _ hinvalid =>
    cases Except.error.inj ((hinvalid r rfl).symm.trans h)

theorem rel_getLast? {α : Type} {S : α → α → Prop} {xs ys : List α} (h : List.Forall₂ S xs ys) :
    Option.Rel S xs.getLast? ys.getLast? := by
  have hreverse := List.forall₂_reverse_iff.2 h
  rw [List.getLast?_eq_head?_reverse, List.getLast?_eq_head?_reverse]
  generalize xs.reverse = us at hreverse ⊢
  generalize ys.reverse = vs at hreverse ⊢
  cases hreverse with
  | nil => exact .none
  | cons hx _ => exact .some hx

/-- Two errors have one cause and stand at tokens in one place of two lists, or at the ends. -/
inductive ErrorsLike (ts ts' : List Token) : GrammarError → GrammarError → Prop
  | token {t t' : Token} (expected : List String) (h : (t, t') ∈ ts.zip ts') :
    ErrorsLike ts ts' ⟨.unexpectedToken t.kind.describe expected, t.position⟩
      ⟨.unexpectedToken t.kind.describe expected, t'.position⟩
  | value {t t' : Token} {text : String} (clause reason : String) (ht : t.kind = .value text)
    (h : (t, t') ∈ ts.zip ts') :
    ErrorsLike ts ts' ⟨.invalidValue clause text reason, t.position⟩
      ⟨.invalidValue clause text reason, t'.position⟩
  | atEnd (expected : List String) :
    ErrorsLike ts ts' ⟨.unexpectedEnd expected, lastPosition {} ts⟩
      ⟨.unexpectedEnd expected, lastPosition {} ts'⟩

/-- **Tokens that are alike are scripts that are alike, or fail in one place.** -/
theorem ofTokens_matched {L : Likeness} {ts ts' : List Token} (h : L.TokensLike ts ts') :
    Matched False (ErrorsLike ts ts') L.ScriptLike (ofTokens ts) (ofTokens ts') := by
  let T : Token → Token → Prop := fun t t' => L.TokenLike t t' ∧ (t, t') ∈ ts.zip ts'
  have hrest : List.Forall₂ T ts ts' := by
    rw [List.forall₂_iff_zip]
    exact ⟨h.length_eq, fun hx => ⟨List.forall₂_zip h hx, hx⟩⟩
  have hrun := Grammar.respects_script (T := T) (fun _ _ ht => ht.1) { rest := ts }
    { rest := ts' } ⟨hrest, rfl⟩
  have hmatched : Matched False (Grammar.FaultLike T) L.ScriptLike (ofTokens ts) (ofTokens ts') :=
    hrun.map fun _ _ hs => hs.1
  refine hmatched.mono_of_eq (fun e e' he he' hfault => ?_) fun _ _ _ _ hs => hs
  cases hfault with
  | token expected ht => exact .token expected ht.2
  | value clause reason hkind ht => exact .value clause reason hkind ht.2
  | atEnd expected p p' =>
    rw [position_of_unexpectedEnd he, position_of_unexpectedEnd he']
    exact .atEnd expected

end TestScript.Script
