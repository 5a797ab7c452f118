import TestScript.Proofs.Grammar.Acceptance

/-!
# The order of execution

Steps are declared in one order and taken in another: the steps after all others are declared in
front of the main ones, and the hooks of a step stand behind its identifier. What is taken when
can be told from the tokens alone. A keyword of a section has under it the tokens that follow and
are deeper, up to the next key that is not; an identifier of the depth below declares a step, and
has under it the hooks of that step. `executes_of_ofTokens_eq_ok` says that the steps of a script
are those, block by block, and that each identifier declares exactly one of them.
-/

namespace TestScript

namespace Step

/-- How a step is called, and where. -/
def name {η : Type} (s : Step η) : String × Position :=
  (s.id, s.position)

/-- The names of a step and its hooks, in the order in which they are taken. -/
def blockNames (s : MainStep) : List (String × Position) :=
  s.block.map name

theorem blockNames_eq (s : MainStep) :
    s.blockNames = (Hooks.stepsOf s.hooks.before).map name ++
      s.name :: (Hooks.stepsOf s.hooks.after).map name := by
  rw [blockNames, block, List.map_append, List.map_cons]
  rfl

end Step

namespace Script

variable {η σ α : Type} {d : Nat}

/-! ## What tokens declare -/

/-- The name that an identifier declares. -/
def Token.name? (t : Token) : Option (String × Position) :=
  match t.kind with
  | .identifier text => some (text, t.position)
  | .keyword _ | .value _ | .object _ => none

/-- The names that identifiers declare, in order. -/
def identifiers (ts : List Token) : List (String × Position) :=
  ts.filterMap Token.name?

/-- Whether a token is a keyword of a depth. -/
def Token.isKeyword (k : Keyword) (depth : Nat) (t : Token) : Bool :=
  match t.kind with
  | .keyword k' => k' = k && t.depth = depth
  | .identifier _ | .value _ | .object _ => false

instance (depth : Nat) : DecidablePred (Token.IsUnder depth)
  | ⟨.value _, _, _⟩ | ⟨.object _, _, _⟩ => .isTrue trivial
  | ⟨.keyword _, _, d⟩ | ⟨.identifier _, _, d⟩ => inferInstanceAs (Decidable (depth < d))

/-- The tokens that belong under the first keyword of a kind and a depth. -/
def sectionOf (k : Keyword) (depth : Nat) : List Token → List Token
  | [] => []
  | t :: ts =>
    if t.isKeyword k depth then ts.takeWhile (·.IsUnder depth) else sectionOf k depth ts

/-- The names declared at a depth, each with the tokens that belong under it. -/
def declarations (depth : Nat) : List Token → List ((String × Position) × List Token)
  | [] => []
  | t :: ts =>
    match t.name? with
    | some name =>
      if t.depth = depth then (name, ts.takeWhile (·.IsUnder depth)) :: declarations depth ts
      else declarations depth ts
    | none => declarations depth ts

/-- The names of the hooks that are declared under a step. -/
def hookNames (k : Keyword) (inner : List Token) : List (String × Position) :=
  (declarations 3 (sectionOf k 2 inner)).map Prod.fst

/-- A step with its hooks around it. -/
def declaredBlock (step : (String × Position) × List Token) : List (String × Position) :=
  hookNames .before step.2 ++ step.1 :: hookNames .after step.2

/-- The blocks of the steps in a section, in the order in which they are declared. -/
def declaredBlocks (k : Keyword) (ts : List Token) : List (List (String × Position)) :=
  (declarations 1 (sectionOf k 0 ts)).map declaredBlock

/-! ### Finding sections and declarations -/

theorem sectionOf_append {k : Keyword} {u v : List Token}
    (hu : ∀ t ∈ u, t.isKeyword k d = false) : sectionOf k d (u ++ v) = sectionOf k d v := by
  induction u with
  | nil => rfl
  | cons t u ih =>
    rw [List.cons_append, sectionOf, hu t List.mem_cons_self,
      ih fun t ht => hu t (List.mem_cons_of_mem _ ht)]
    rfl

theorem sectionOf_eq_nil {k : Keyword} {u : List Token}
    (hu : ∀ t ∈ u, t.isKeyword k d = false) : sectionOf k d u = [] := by
  simpa [sectionOf] using sectionOf_append (v := []) hu

theorem takeWhile_isUnder {u v : List Token} (hu : ∀ t ∈ u, t.IsUnder d)
    (hv : ∀ t ∈ v.head?, ¬ t.IsUnder d) : (u ++ v).takeWhile (·.IsUnder d) = u := by
  rw [List.takeWhile_append_of_pos (by simpa using hu)]
  cases v with
  | nil => simp
  | cons t v =>
    have ht : ¬ t.IsUnder d := hv t rfl
    simp [ht]

theorem sectionOf_cons {k : Keyword} {t : Token} {u v : List Token} (ht : t.isKeyword k d = true)
    (hu : ∀ t ∈ u, t.IsUnder d) (hv : ∀ t ∈ v.head?, ¬ t.IsUnder d) :
    sectionOf k d (t :: u ++ v) = u := by
  rw [List.cons_append, sectionOf, if_pos ht, takeWhile_isUnder hu hv]

theorem declarations_append {u v : List Token} (hu : ∀ t ∈ u, t.IsUnder d) :
    declarations d (u ++ v) = declarations d v := by
  induction u with
  | nil => rfl
  | cons t u ih =>
    have hrest := ih fun t ht => hu t (List.mem_cons_of_mem _ ht)
    have ht : t.IsUnder d := hu t List.mem_cons_self
    rw [List.cons_append, declarations, hrest]
    cases hk : t.kind with
    | identifier text =>
      have hne : t.depth ≠ d := by
        simp only [Token.IsUnder, hk] at ht
        omega
      simp [Token.name?, hk, hne]
    | keyword | value | object => simp [Token.name?, hk]

theorem declarations_cons {t : Token} {name : String × Position} {u v : List Token}
    (hname : t.name? = some name) (hdepth : t.depth = d) (hu : ∀ t ∈ u, t.IsUnder d)
    (hv : ∀ t ∈ v.head?, ¬ t.IsUnder d) :
    declarations d (t :: u ++ v) = (name, u) :: declarations d v := by
  rw [List.cons_append, declarations, hname]
  simp only [if_pos hdepth, takeWhile_isUnder hu hv, declarations_append hu]

/-! ## Clauses without steps -/

/-- Tokens of clauses at a depth in which no step is declared. -/
structure IsPlain (d : Nat) (w : List Token) : Prop where
  mem : ∀ t ∈ w, t ∈ contents ∪ keywordsAt clauseKeywords d
  head : ∀ t ∈ w.head?, ¬ t.IsUnder d

theorem not_isUnder_head_append {u v : List Token} (hu : ∀ t ∈ u.head?, ¬ t.IsUnder d)
    (hv : ∀ t ∈ v.head?, ¬ t.IsUnder d) : ∀ t ∈ (u ++ v).head?, ¬ t.IsUnder d := by
  cases u with
  | nil => exact hv
  | cons t u => exact hu

namespace IsPlain

variable {u v w : List Token}

theorem nil : IsPlain d [] :=
  ⟨fun _ h => by simp at h, fun _ h => by simp at h⟩

theorem append (hu : IsPlain d u) (hv : IsPlain d v) : IsPlain d (u ++ v) where
  mem t ht := (List.mem_append.1 ht).elim (hu.mem t) (hv.mem t)
  head := not_isUnder_head_append hu.head hv.head

theorem identifiers_eq (hw : IsPlain d w) : identifiers w = [] := by
  rw [identifiers, List.filterMap_eq_nil_iff]
  intro t ht
  rcases hw.mem t ht with (⟨x, hx⟩ | ⟨x, hx⟩) | ⟨k, -, hk, -⟩
  · simp [Token.name?, hx]
  · simp [Token.name?, hx]
  · simp [Token.name?, hk]

theorem isKeyword_eq (hw : IsPlain d w) {k : Keyword} {d' : Nat} (hk : k ∉ clauseKeywords) :
    ∀ t ∈ w, t.isKeyword k d' = false := by
  intro t ht
  rcases hw.mem t ht with (⟨x, hx⟩ | ⟨x, hx⟩) | ⟨k', hk', hx, -⟩
  · simp [Token.isKeyword, hx]
  · simp [Token.isKeyword, hx]
  · have hne : k' ≠ k := fun h => hk (h ▸ hk')
    simp [Token.isKeyword, hx, hne]

theorem isUnder (hw : IsPlain (d + 1) w) : ∀ t ∈ w, t.IsUnder d := by
  intro t ht
  rcases hw.mem t ht with h | h
  · exact contents_subset_under h
  · exact keywordsAt_subset_under (Nat.lt_succ_self d) h

end IsPlain

namespace Form

/-- The phrases of a clause are plain. -/
def Plain (F : Form α) (d : Nat) : Prop :=
  ∀ w a, F.Derives w a → IsPlain d w

theorem Headed.plain {F : Form α} (hF : F.Headed (keywordsAt clauseKeywords d)
    (contents ∪ keywordsAt clauseKeywords d)) : F.opt.Plain d := by
  intro w a h
  rcases derives_opt.1 h with ⟨rfl, -⟩ | ⟨b, -, hb⟩
  · exact .nil
  · obtain ⟨t, u, rfl, ht, hu⟩ := hF w b hb
    refine ⟨fun x hx => ?_, fun x hx => ?_⟩
    · rcases List.mem_cons.1 hx with rfl | hx
      · exact .inr ht
      · exact hu x hx
    · cases hx
      exact not_isUnder_of_mem_keywordsAt ht

theorem Plain.map {β : Type} {F : Form α} {f : α → β} (hF : F.Plain d) :
    (F >>= fun a => pure (f a)).Plain d := by
  intro w b h
  obtain ⟨a, ha, -⟩ := derives_map.1 h
  exact hF w a ha

/-- A clause is plain if what it holds is. -/
theorem plain_clause {k : Keyword} {C : Position → Form α} (hk : k ∈ clauseKeywords)
    (hC : ∀ p, (C p).Within (contents ∪ keywordsAt clauseKeywords d)) :
    (keyword k d >>= C).opt.Plain d :=
  Headed.plain (headed_token (fun _ _ h => ⟨k, hk, h.1, h.2.1⟩) hC)

theorem plain_markers : ((markers d).optUnless (·.names.isEmpty)).Plain d :=
  Plain.map (plain_clause (by decide) fun _ =>
    (within_value Set.subset_union_left).many.bind fun _ => .pure _)

theorem plain_parameterize : (parameterize d).opt.Plain d := by
  refine Headed.plain (headed_token (fun t x h => ?_) fun _ =>
    (within_object Set.subset_union_left).bind fun _ => .pure _)
  obtain ⟨⟨ht, -⟩ | ⟨ht, -⟩, hdepth, -⟩ := h
  · exact ⟨.parameterize, by decide, ht, hdepth⟩
  · exact ⟨.foreach, by decide, ht, hdepth⟩

theorem plain_params {k : Keyword} (hk : k ∈ clauseKeywords) : (params k d).opt.Plain d :=
  plain_clause hk fun _ => (within_object Set.subset_union_left).bind fun _ =>
    (within_object Set.subset_union_left).many.bind fun _ => .pure _

/-- The hooks of a step stand between clauses in which no step is declared. -/
theorem derives_step {hooks : Nat → Form η} {w : List Token} {a : Step η}
    (h : (step hooks d).Derives w a) :
    ∃ t front own back, w = t :: (front ++ own ++ back) ∧ t.name? = some a.name ∧ t.depth = d ∧
      IsPlain (d + 1) front ∧ (hooks (d + 1)).Derives own a.hooks ∧ IsPlain (d + 1) back := by
  have hvalue : value.Within (contents ∪ keywordsAt clauseKeywords (d + 1)) :=
    within_value Set.subset_union_left
  have hretries : retryCount.Within (contents ∪ keywordsAt clauseKeywords (d + 1)) :=
    .token fun t n ⟨text, ht, _⟩ => .inl (.inl ⟨text, ht⟩)
  unfold step at h
  obtain ⟨_, _, name, rfl, hname, h⟩ := derives_bind.1 h
  obtain ⟨w₁, _, skipEnv, rfl, h₁, h⟩ := derives_bind.1 h
  obtain ⟨w₂, _, skip, rfl, h₂, h⟩ := derives_bind.1 h
  obtain ⟨w₃, _, markers, rfl, h₃, h⟩ := derives_bind.1 h
  obtain ⟨w₄, _, flaky, rfl, h₄, h⟩ := derives_bind.1 h
  obtain ⟨w₅, _, parameterize, rfl, h₅, h⟩ := derives_bind.1 h
  obtain ⟨own, _, hooks', rfl, hown, h⟩ := derives_bind.1 h
  obtain ⟨w₆, _, uses, rfl, h₆, h⟩ := derives_bind.1 h
  obtain ⟨w₇, w₈, input, rfl, h₇, h⟩ := derives_bind.1 h
  obtain ⟨output, h₈, rfl⟩ := derives_map.1 h
  obtain ⟨t, rfl, ht, hdepth, hposition⟩ := derives_token.1 hname
  have hskipEnv := plain_clause (by decide) (fun _ => hvalue.bind fun _ => .pure _) _ _ h₁
  have hskip := plain_clause (by decide) (fun _ => hvalue.many.bind fun _ => .pure _) _ _ h₂
  have hmarkers := plain_markers _ _ h₃
  have hflaky := plain_clause (by decide) (fun _ => hretries.bind fun _ => .pure _) _ _ h₄
  have hparameterize := plain_parameterize _ _ h₅
  have huse := plain_clause (by decide) (fun _ => hvalue.bind fun _ => .pure _) _ _ h₆
  have hinput := plain_params (by decide) _ _ h₇
  have houtput := plain_params (by decide) _ _ h₈
  refine ⟨t, w₁ ++ w₂ ++ w₃ ++ w₄ ++ w₅, own, w₆ ++ w₇ ++ w₈, by simp, ?_, hdepth,
    (((hskipEnv.append hskip).append hmarkers).append hflaky).append hparameterize, hown,
    (huse.append hinput).append houtput⟩
  simp [Token.name?, ht, Step.name, hposition]

/-- A section of steps is missing, or its keyword stands in front of the steps. -/
theorem derives_hooks {step : Nat → Form σ} {k : Keyword} {w : List Token}
    {a : Option (Hooks σ)} (h : ((hooks step k d).optUnless (·.steps.isEmpty)).Derives w a) :
    w = [] ∧ Hooks.stepsOf a = [] ∨
      ∃ t x, w = t :: x ∧ t.isKeyword k d = true ∧
        (step (d + 1)).many.Derives x (Hooks.stepsOf a) := by
  obtain ⟨found, hfound, rfl⟩ := derives_map.1 h
  rcases derives_opt.1 hfound with ⟨rfl, rfl⟩ | ⟨b, rfl, hb⟩
  · exact .inl ⟨rfl, rfl⟩
  · simp only [hooks, derives_bind, derives_pure] at hb
    obtain ⟨_, _, p, rfl, hkeyword, x, _, steps, rfl, hsteps, rfl, rfl⟩ := hb
    obtain ⟨t, rfl, ht, hdepth, -⟩ := derives_token.1 hkeyword
    refine .inr ⟨t, x, by simp, by simp [Token.isKeyword, ht, hdepth], ?_⟩
    cases steps <;> exact hsteps

/-! ## Every identifier declares one step -/

/-- The identifiers of a phrase are some names, in any order. -/
def Lists (F : Form α) (names : α → List (String × Position)) : Prop :=
  ∀ w a, F.Derives w a → (identifiers w).Perm (names a)

theorem identifiers_append (u v : List Token) :
    identifiers (u ++ v) = identifiers u ++ identifiers v :=
  List.filterMap_append ..

theorem identifiers_cons_keyword {k : Keyword} {t : Token} (ht : t.isKeyword k d = true)
    (w : List Token) : identifiers (t :: w) = identifiers w := by
  have hname : t.name? = none := by
    unfold Token.isKeyword at ht
    unfold Token.name?
    cases hk : t.kind <;> simp_all
  rw [identifiers, List.filterMap_cons_none hname]
  rfl

theorem Lists.many {F : Form σ} {names : σ → List (String × Position)} (hF : F.Lists names) :
    F.many.Lists fun as => as.flatMap names := by
  intro w as h
  induction as generalizing w with
  | nil =>
    obtain rfl := derives_many_nil.1 h
    exact .nil
  | cons a as ih =>
    obtain ⟨u, v, rfl, ha, has⟩ := derives_many_cons.1 h
    rw [identifiers_append]
    exact (hF u a ha).append (ih v has)

theorem Lists.hooks {step : Nat → Form σ} {k : Keyword} {names : σ → List (String × Position)}
    (hstep : (step (d + 1)).Lists names) :
    ((hooks step k d).optUnless (·.steps.isEmpty)).Lists fun a =>
      (Hooks.stepsOf a).flatMap names := by
  intro w a h
  rcases derives_hooks h with ⟨rfl, ha⟩ | ⟨t, x, rfl, ht, hx⟩
  · show List.Perm [] ((Hooks.stepsOf a).flatMap names)
    rw [ha]
    exact .nil
  · rw [identifiers_cons_keyword ht]
    exact hstep.many x _ hx

theorem lists_step {hooks : Nat → Form η} {names : η → List (String × Position)}
    (hhooks : (hooks (d + 1)).Lists names) :
    (step hooks d).Lists fun a => a.name :: names a.hooks := by
  intro w a h
  obtain ⟨t, front, own, back, rfl, hname, -, hfront, hown, hback⟩ := derives_step h
  have hidentifiers : identifiers (t :: (front ++ own ++ back)) = a.name :: identifiers own := by
    rw [identifiers, List.filterMap_cons_some hname]
    show a.name :: identifiers (front ++ own ++ back) = _
    rw [identifiers_append, identifiers_append, hfront.identifiers_eq, hback.identifiers_eq,
      List.nil_append, List.append_nil]
  rw [hidentifiers]
  exact (hhooks own _ hown).cons _

theorem lists_hookStep : (hookStep d).Lists fun a => [a.name] := by
  have hnone : (pure () : Form Unit).Lists fun _ => [] := by
    intro w a h
    obtain ⟨rfl, -⟩ := derives_pure.1 h
    exact .nil
  exact @lists_step _ _ (fun _ => pure ()) (fun _ => []) hnone

theorem lists_mainStep : (mainStep d).Lists Step.blockNames := by
  have hhooks : ∀ k, ((Form.hooks hookStep k (d + 1)).optUnless (·.steps.isEmpty)).Lists fun a =>
      (Hooks.stepsOf a).map Step.name := by
    intro k w a h
    show List.Perm _ ((Hooks.stepsOf a).map Step.name)
    rw [List.map_eq_flatMap]
    exact Lists.hooks lists_hookStep w a h
  have hown : (ownHooks (d + 1)).Lists fun own =>
      (Hooks.stepsOf own.before).map Step.name ++ (Hooks.stepsOf own.after).map Step.name := by
    intro w own h
    simp only [ownHooks, derives_bind, derives_pure] at h
    obtain ⟨u, _, before, rfl, hbefore, v, _, after, rfl, hafter, rfl, rfl⟩ := h
    rw [List.append_nil, identifiers_append]
    exact (hhooks _ u before hbefore).append (hhooks _ v after hafter)
  intro w s h
  rw [Step.blockNames_eq]
  -- A step is declared in front of its hooks but is taken between them.
  exact (lists_step hown w s h).trans List.perm_middle.symm

/-! ## What stands where -/

/-- Each phrase declares one step at a depth, and `view` tells of its tokens what `is` tells of its
meaning. -/
def Declares {β : Type} (F : Form σ) (d : Nat)
    (view : (String × Position) × List Token → β) (is : σ → β) : Prop :=
  ∀ w a, F.Derives w a → ∃ t name u, w = t :: u ∧ t.name? = some name ∧ t.depth = d ∧
    (∀ x ∈ u, x.IsUnder d) ∧ view (name, u) = is a

theorem not_isUnder_of_name {t : Token} {name : String × Position} (h : t.name? = some name)
    (hdepth : t.depth = d) : ¬ t.IsUnder d := by
  unfold Token.name? at h
  unfold Token.IsUnder
  cases hk : t.kind <;> simp_all

theorem isUnder_of_name {t : Token} {name : String × Position} (h : t.name? = some name)
    (hdepth : t.depth = d + 1) : t.IsUnder d := by
  unfold Token.name? at h
  unfold Token.IsUnder
  cases hk : t.kind <;> simp_all

section Declares

variable {β : Type} {F : Form σ} {view : (String × Position) × List Token → β} {is : σ → β}

theorem Declares.many (hF : F.Declares d view is) {w : List Token} {as : List σ}
    (h : F.many.Derives w as) :
    (declarations d w).map view = as.map is ∧ ∀ t ∈ w.head?, ¬ t.IsUnder d := by
  induction as generalizing w with
  | nil =>
    obtain rfl := derives_many_nil.1 h
    exact ⟨rfl, fun t ht => by simp at ht⟩
  | cons a as ih =>
    obtain ⟨_, v, rfl, ha, has⟩ := derives_many_cons.1 h
    obtain ⟨t, name, u, rfl, hname, hdepth, hu, hview⟩ := hF _ a ha
    obtain ⟨hrest, hhead⟩ := ih has
    refine ⟨?_, fun x hx => ?_⟩
    · rw [declarations_cons hname hdepth hu hhead, List.map_cons, List.map_cons, hview, hrest]
    · cases hx
      exact not_isUnder_of_name hname hdepth

theorem Declares.isUnder_many (hF : F.Declares (d + 1) view is) {w : List Token} {as : List σ}
    (h : F.many.Derives w as) : ∀ t ∈ w, t.IsUnder d := by
  refine Within.many (S := under d) (fun w a ha x hx => ?_) w as h
  obtain ⟨t, name, u, rfl, hname, hdepth, hu, -⟩ := hF w a ha
  rcases List.mem_cons.1 hx with rfl | hx
  · exact isUnder_of_name hname hdepth
  · exact under_subset_under (Nat.le_succ d) (hu x hx)

end Declares

/-- Some tokens are one section of a keyword at most, and `steps` is what is declared in it. -/
structure HasSection {β : Type} (k : Keyword) (d : Nat)
    (view : (String × Position) × List Token → β) (w : List Token) (steps : List β) : Prop where
  /-- The section is found among tokens of other clauses. -/
  found : ∀ u v, (∀ t ∈ u, t.isKeyword k d = false) → (∀ t ∈ v, t.isKeyword k d = false) →
    (∀ t ∈ v.head?, ¬ t.IsUnder d) →
    (declarations (d + 1) (sectionOf k d (u ++ (w ++ v)))).map view = steps
  head : ∀ t ∈ w.head?, ¬ t.IsUnder d
  mem : ∀ t ∈ w, t.isKeyword k d = true ∨ t.IsUnder d

theorem isKeyword_iff {k : Keyword} {t : Token} :
    t.isKeyword k d = true ↔ t.kind = .keyword k ∧ t.depth = d := by
  unfold Token.isKeyword
  cases t.kind <;> simp

theorem not_isUnder_of_isKeyword {k : Keyword} {t : Token} (h : t.isKeyword k d = true) :
    ¬ t.IsUnder d := by
  obtain ⟨hk, rfl⟩ := isKeyword_iff.1 h
  simp [Token.IsUnder, hk]

theorem HasSection.isKeyword_eq {β : Type} {k k' : Keyword}
    {view : (String × Position) × List Token → β} {w : List Token} {steps : List β}
    (h : HasSection k d view w steps) (hne : k ≠ k') : ∀ t ∈ w, t.isKeyword k' d = false := by
  intro t ht
  rw [Bool.eq_false_iff]
  intro hk'
  rcases h.mem t ht with hk | hunder
  · rw [isKeyword_iff] at hk hk'
    cases hk.1.symm.trans hk'.1
    exact hne rfl
  · exact not_isUnder_of_isKeyword hk' hunder

section HasSection

variable {β : Type} {view : (String × Position) × List Token → β} {is : σ → β} {k : Keyword}

theorem hasSection_cons {F : Form σ} (hF : F.Declares (d + 1) view is) {t : Token}
    (ht : t.isKeyword k d = true) {x : List Token} {as : List σ} (hx : F.many.Derives x as) :
    HasSection k d view (t :: x) (as.map is) where
  found u v hu _ hv := by
    rw [sectionOf_append hu, sectionOf_cons ht (hF.isUnder_many hx) hv, (hF.many hx).1]
  head y hy := by
    cases hy
    exact not_isUnder_of_isKeyword ht
  mem y hy := by
    rcases List.mem_cons.1 hy with rfl | hy
    · exact .inl ht
    · exact .inr (hF.isUnder_many hx y hy)

theorem hasSection_hooks {step : Nat → Form σ}
    (hstep : (step (d + 1)).Declares (d + 1) view is) {w : List Token} {a : Option (Hooks σ)}
    (h : ((hooks step k d).optUnless (·.steps.isEmpty)).Derives w a) :
    HasSection k d view w ((Hooks.stepsOf a).map is) := by
  rcases derives_hooks h with ⟨rfl, ha⟩ | ⟨t, x, rfl, ht, hx⟩
  · rw [ha]
    refine ⟨fun u v hu hv _ => ?_, fun t ht => by simp at ht, fun t ht => by simp at ht⟩
    rw [sectionOf_append hu, List.nil_append, sectionOf_eq_nil hv]
    rfl
  · exact hasSection_cons hstep ht hx

end HasSection

theorem declares_hookStep : (hookStep d).Declares d Prod.fst Step.name := by
  intro w a h
  obtain ⟨t, front, own, back, rfl, hname, hdepth, hfront, hown, hback⟩ := derives_step h
  obtain ⟨rfl, -⟩ := derives_pure.1 hown
  rw [List.append_nil]
  exact ⟨t, a.name, _, rfl, hname, hdepth, (hfront.append hback).isUnder, rfl⟩

theorem declares_mainStep : (mainStep 1).Declares 1 declaredBlock Step.blockNames := by
  intro w a h
  obtain ⟨t, front, own, back, rfl, hname, hdepth, hfront, hown, hback⟩ := derives_step h
  simp only [ownHooks, derives_bind, derives_pure] at hown
  obtain ⟨u, _, before, rfl, hu, v, _, after, rfl, hv, rfl, hown⟩ := hown
  rw [List.append_nil]
  have hbefore := hasSection_hooks declares_hookStep hu
  have hafter := hasSection_hooks declares_hookStep hv
  have hclauses : Keyword.before ∉ clauseKeywords ∧ Keyword.after ∉ clauseKeywords := by decide
  have hinner : front ++ (u ++ v) ++ back = front ++ (u ++ (v ++ back)) := by
    simp only [List.append_assoc]
  have hinner' : front ++ (u ++ v) ++ back = front ++ u ++ (v ++ back) := by
    simp only [List.append_assoc]
  have hnames : hookNames .before (front ++ (u ++ v) ++ back) =
      (Hooks.stepsOf before).map Step.name := by
    rw [hookNames, hinner]
    exact hbefore.found _ _ (hfront.isKeyword_eq hclauses.1)
      (List.forall_mem_append.2 ⟨hafter.isKeyword_eq (by decide), hback.isKeyword_eq hclauses.1⟩)
      (not_isUnder_head_append hafter.head hback.head)
  have hnames' : hookNames .after (front ++ (u ++ v) ++ back) =
      (Hooks.stepsOf after).map Step.name := by
    rw [hookNames, hinner']
    exact hafter.found _ _
      (List.forall_mem_append.2 ⟨hfront.isKeyword_eq hclauses.2, hbefore.isKeyword_eq (by decide)⟩)
      (hback.isKeyword_eq hclauses.2) hback.head
  have hunder : ∀ {k : Keyword} {x : List Token} {steps : List (String × Position)},
      HasSection k 2 Prod.fst x steps → ∀ t ∈ x, t.IsUnder 1 := by
    intro k x steps hx t ht
    rcases hx.mem t ht with hk | hunder
    · obtain ⟨hk, hdepth⟩ := isKeyword_iff.1 hk
      simp [Token.IsUnder, hk, hdepth]
    · exact under_subset_under (Nat.le_succ 1) hunder
  refine ⟨t, a.name, _, rfl, hname, hdepth, ?_, ?_⟩
  · have hsections := List.forall_mem_append.2 ⟨hunder hbefore, hunder hafter⟩
    exact List.forall_mem_append.2
      ⟨List.forall_mem_append.2 ⟨hfront.isUnder, hsections⟩, hback.isUnder⟩
  · rw [declaredBlock, hnames, hnames', Step.blockNames_eq, ← hown]

end Form

/-! ## Whole scripts -/

namespace Form

/-- The parts of a script in the tokens that it is read from. -/
theorem derives_script {w : List Token} {s : Script} (h : script.Derives w s) :
    ∃ t t' front u v t'' x, w = t :: t' :: (front ++ u ++ v ++ t'' :: x) ∧
      t.isKeyword .issue 0 = true ∧ (∃ text, t'.kind = .value text) ∧ IsPlain 0 front ∧
      ((hooks mainStep .before 0).optUnless (·.steps.isEmpty)).Derives u s.before ∧
      ((hooks mainStep .after 0).optUnless (·.steps.isEmpty)).Derives v s.after ∧
      t''.isKeyword .steps 0 = true ∧ (mainStep 1).many.Derives x s.steps := by
  unfold script at h
  obtain ⟨_, _, p, rfl, hissue, h⟩ := derives_bind.1 h
  obtain ⟨_, _, issue, rfl, hvalue, h⟩ := derives_bind.1 h
  obtain ⟨front, _, markers, rfl, hmarkers, h⟩ := derives_bind.1 h
  obtain ⟨u, _, before, rfl, hu, h⟩ := derives_bind.1 h
  obtain ⟨v, _, after, rfl, hv, h⟩ := derives_bind.1 h
  obtain ⟨_, _, p', rfl, hsteps, h⟩ := derives_bind.1 h
  obtain ⟨y, z, first, rfl, hfirst, h⟩ := derives_bind.1 h
  obtain ⟨others, hothers, rfl⟩ := derives_map.1 h
  obtain ⟨t, rfl, ht, hdepth, -⟩ := derives_token.1 hissue
  obtain ⟨t', rfl, ht', -⟩ := derives_token.1 hvalue
  obtain ⟨t'', rfl, ht'', hdepth'', -⟩ := derives_token.1 hsteps
  refine ⟨t, t', front, u, v, t'', y ++ z, by simp, isKeyword_iff.2 ⟨ht, hdepth⟩, ⟨_, ht'⟩,
    plain_markers _ _ hmarkers, hu, hv, isKeyword_iff.2 ⟨ht'', hdepth''⟩, ?_⟩
  exact derives_many_cons.2 ⟨y, z, rfl, hfirst, hothers⟩

end Form

/-- What is taken when: `ts` are the tokens of `s`. -/
structure Executes (ts : List Token) (s : Script) : Prop where
  /-- Each identifier declares one step, and there are no other steps. -/
  perm : (s.allSteps.map Step.name).Perm (identifiers ts)
  /-- The steps are taken block by block. -/
  allSteps_eq : s.allSteps = (Hooks.stepsOf s.before).flatMap Step.block ++
    s.steps.flatMap Step.block ++ (Hooks.stepsOf s.after).flatMap Step.block
  before_eq : (Hooks.stepsOf s.before).map Step.blockNames = declaredBlocks .before ts
  steps_eq : s.steps.map Step.blockNames = declaredBlocks .steps ts
  after_eq : (Hooks.stepsOf s.after).map Step.blockNames = declaredBlocks .after ts

theorem map_name_allSteps (s : Script) :
    s.allSteps.map Step.name = (Hooks.stepsOf s.before).flatMap Step.blockNames ++
      s.steps.flatMap Step.blockNames ++ (Hooks.stepsOf s.after).flatMap Step.blockNames := by
  rw [allSteps, List.map_flatMap, List.flatMap_append, List.flatMap_append]
  rfl

open Form in
/-- **No declared step is lost, doubled or out of place.** The steps of a script are the
identifiers of its tokens, and they are taken in blocks: first those of the section before, then
the main ones, then those of the section after, each in the order of the tokens, where a block is
a step between its own hooks. -/
theorem executes_of_ofTokens_eq_ok {ts : List Token} {s : Script} (h : ofTokens ts = .ok s) :
    Executes ts s := by
  obtain ⟨t, t', front, u, v, t'', x, rfl, ht, ⟨text, ht'⟩, hfront, hu, hv, ht'', hx⟩ :=
    derives_script (ofTokens_eq_ok.1 h)
  have hbefore := hasSection_hooks declares_mainStep hu
  have hafter := hasSection_hooks declares_mainStep hv
  have hsteps := hasSection_cons declares_mainStep ht'' hx
  -- No section begins in the tokens of the issue and the markers.
  have hhead : ∀ k, k ≠ .issue → k ∉ clauseKeywords →
      ∀ y ∈ t :: t' :: front, y.isKeyword k 0 = false := by
    intro k hissue hk
    refine List.forall_mem_cons.2 ⟨?_, List.forall_mem_cons.2 ⟨?_, hfront.isKeyword_eq hk⟩⟩
    · rw [Bool.eq_false_iff]
      intro hy
      cases (isKeyword_iff.1 ht).1.symm.trans (isKeyword_iff.1 hy).1
      exact hissue rfl
    · simp [Token.isKeyword, ht']
  have hhead₁ := hhead .before (by decide) (by decide)
  have hhead₂ := hhead .after (by decide) (by decide)
  have hhead₃ := hhead .steps (by decide) (by decide)
  refine ⟨?_, by simp [allSteps], ?_, ?_, ?_⟩
  · have hname : identifiers (t :: t' :: (front ++ u ++ v ++ t'' :: x)) =
        identifiers u ++ (identifiers v ++ identifiers x) := by
      have hvalue : t'.name? = none := by simp [Token.name?, ht']
      rw [identifiers_cons_keyword ht, identifiers, List.filterMap_cons_none hvalue]
      show identifiers (front ++ u ++ v ++ t'' :: x) = _
      rw [identifiers_append, identifiers_append, identifiers_append, hfront.identifiers_eq,
        identifiers_cons_keyword ht'', List.nil_append, List.append_assoc]
    have pbefore := (Lists.hooks lists_mainStep u _ hu).symm
    have pafter := (Lists.hooks lists_mainStep v _ hv).symm
    have psteps := (lists_mainStep.many x _ hx).symm
    rw [hname, map_name_allSteps, List.append_assoc]
    -- The section after is declared in front of the main steps.
    exact pbefore.append (List.perm_append_comm.trans (pafter.append psteps))
  · have hts : t :: t' :: (front ++ u ++ v ++ t'' :: x) =
        (t :: t' :: front) ++ (u ++ (v ++ t'' :: x)) := by simp
    rw [declaredBlocks, hts]
    exact (hbefore.found _ _ hhead₁
      (List.forall_mem_append.2 ⟨hafter.isKeyword_eq (by decide), hsteps.isKeyword_eq (by decide)⟩)
      (not_isUnder_head_append hafter.head hsteps.head)).symm
  · have hts : t :: t' :: (front ++ u ++ v ++ t'' :: x) =
        (t :: t' :: front ++ (u ++ v)) ++ ((t'' :: x) ++ []) := by simp
    have hsections : ∀ y ∈ u ++ v, y.isKeyword .steps 0 = false := List.forall_mem_append.2
      ⟨hbefore.isKeyword_eq (by decide), hafter.isKeyword_eq (by decide)⟩
    rw [declaredBlocks, hts]
    exact (hsteps.found _ _ (List.forall_mem_append.2 ⟨hhead₃, hsections⟩) (by simp)
      (by simp)).symm
  · have hts : t :: t' :: (front ++ u ++ v ++ t'' :: x) =
        (t :: t' :: front ++ u) ++ (v ++ t'' :: x) := by simp
    rw [declaredBlocks, hts]
    exact (hafter.found _ _
      (List.forall_mem_append.2 ⟨hhead₂, hbefore.isKeyword_eq (by decide)⟩)
      (hsteps.isKeyword_eq (by decide)) hsteps.head).symm

/-- A step `b` before all others with a hook of its own, a step `a` after all others, and a main
step `m` with hooks on both sides. -/
theorem executes_hooks_around :
    ∃ s, Executes
        [⟨.keyword .issue, ⟨0, 0⟩, 0⟩, ⟨.value "t", ⟨0, 7⟩, 0⟩, ⟨.keyword .before, ⟨1, 0⟩, 0⟩,
          ⟨.identifier "b", ⟨2, 2⟩, 1⟩, ⟨.keyword .after, ⟨3, 4⟩, 2⟩,
          ⟨.identifier "x", ⟨4, 6⟩, 3⟩, ⟨.keyword .after, ⟨5, 0⟩, 0⟩,
          ⟨.identifier "a", ⟨6, 2⟩, 1⟩, ⟨.keyword .steps, ⟨7, 0⟩, 0⟩,
          ⟨.identifier "m", ⟨8, 2⟩, 1⟩, ⟨.keyword .before, ⟨9, 4⟩, 2⟩,
          ⟨.identifier "x", ⟨10, 6⟩, 3⟩, ⟨.identifier "y", ⟨11, 6⟩, 3⟩,
          ⟨.keyword .after, ⟨12, 4⟩, 2⟩, ⟨.identifier "z", ⟨13, 6⟩, 3⟩] s ∧
      s.allSteps.map Step.id = ["b", "x", "x", "y", "m", "z", "a"] :=
  ⟨_, executes_of_ofTokens_eq_ok (by rfl), by rfl⟩

end Script
end TestScript
