import TestScript.Proofs.Grammar.Form

/-!
# The forms of a script

The grammar of scripts, production by production:

    script := ISSUE@0 VALUE markers@0? before@0? after@0? STEPS@0 step@1+
    markers@d := MARKERS@d VALUE*
    before@d := BEFORE@d step@(d+1)*        after@d := AFTER@d step@(d+1)*
    step@d := ID@d skip_env? skip? markers? flaky? parameterize? before? after? use? input? output?
    parameterize@d := (PARAMETERIZE@d | FOREACH@d) OBJECT

The clauses of `step@d` are those of depth `d + 1`. `BEFORE` and `AFTER` are keywords at the
depths 0 and 2 only, so the steps at depth 1 have hooks (`mainStep`) and those at depth 3, which
are hooks of a step, have none (`hookStep`). A value and an object may have any depth.

A form only says what a phrase is; its meaning is the part of the script that it stands for.
-/

namespace TestScript.Script

/-- A text that counts retries: an optional plus and ASCII digits between blanks, for a number
that 32 bits hold. -/
def IsRetryCount (text : String) (n : Nat) : Prop :=
  ∃ sign digits, Text.trimBlanks text.toList = sign ++ digits ∧ (sign = [] ∨ sign = ['+']) ∧
    digits ≠ [] ∧ (∀ c ∈ digits, c.isDigit) ∧ Number.ofDigits digits = n ∧ n < Nat.pow 2 32

namespace Form

/-! ## Tokens -/

/-- A keyword at a depth; it means its place. -/
def keyword (k : Keyword) (depth : Nat) : Form Position :=
  token fun t p => t.kind = .keyword k ∧ t.depth = depth ∧ t.position = p

/-- An identifier at a depth, with its place. -/
def identifier (depth : Nat) : Form (String × Position) :=
  token fun t x => t.kind = .identifier x.1 ∧ t.depth = depth ∧ t.position = x.2

/-- A value, with its place. -/
def value : Form (String × Position) :=
  token fun t x => t.kind = .value x.1 ∧ t.position = x.2

/-- A value that counts retries. -/
def retryCount : Form Nat :=
  token fun t n => ∃ text, t.kind = .value text ∧ IsRetryCount text n

/-- An object, with its place. -/
def object : Form Param :=
  token fun t x => t.kind = .object x.object ∧ t.position = x.position

/-- The keyword of a repeated step, with its place. -/
def repeatMode (depth : Nat) : Form (RepeatMode × Position) :=
  token fun t x =>
    (t.kind = .keyword .parameterize ∧ x.1 = .parameterize ∨
      t.kind = .keyword .foreach ∧ x.1 = .foreach) ∧ t.depth = depth ∧ t.position = x.2

/-! ## Clauses -/

/-- A part that may be missing; one that is empty counts as missing. -/
def optUnless {α : Type} (F : Form α) (isEmpty : α → Bool) : Form (Option α) := do
  let found ← F.opt
  return found.filter (!isEmpty ·)

def markers (depth : Nat) : Form Markers := do
  let position ← keyword .markers depth
  let names ← value.many
  return ⟨names.map Prod.fst, position⟩

def skipEnv (depth : Nat) : Form SkipEnv := do
  let position ← keyword .skipEnv depth
  let env ← value
  return ⟨env.1, position⟩

/-- The words of a reason are joined by a blank. -/
def skip (depth : Nat) : Form Skip := do
  let position ← keyword .skip depth
  let words ← value.many
  return ⟨if words = [] then none else some (" ".intercalate (words.map Prod.fst)), position⟩

def flaky (depth : Nat) : Form Flaky := do
  let position ← keyword .flaky depth
  let retries ← retryCount
  return ⟨retries, position⟩

def parameterize (depth : Nat) : Form Parameterize := do
  let mode ← repeatMode depth
  let payload ← object
  return ⟨mode.1, payload, mode.2⟩

def use (depth : Nat) : Form Use := do
  let position ← keyword .use depth
  let call ← value
  return ⟨call.1, position⟩

def params (k : Keyword) (depth : Nat) : Form (List Param) := do
  let _ ← keyword k depth
  let first ← object
  let others ← object.many
  return first :: others

/-! ## Steps -/

/-- A step; `hooks` is the form of its hooks. -/
def step {η : Type} (hooks : Nat → Form η) (depth : Nat) : Form (Step η) := do
  let name ← identifier depth
  let skipEnv ← (skipEnv (depth + 1)).opt
  let skip ← (skip (depth + 1)).opt
  let markers ← (markers (depth + 1)).optUnless (·.names.isEmpty)
  let flaky ← (flaky (depth + 1)).opt
  let parameterize ← (parameterize (depth + 1)).opt
  let hooks ← hooks (depth + 1)
  let uses ← (use (depth + 1)).opt
  let input ← (params .input (depth + 1)).opt
  let output ← (params .output (depth + 1)).opt
  return {
    id := name.1, skipEnv, skip, markers, flaky, parameterize, hooks, uses, input, output
    position := name.2 }

/-- A section of steps. -/
def hooks {σ : Type} (step : Nat → Form σ) (k : Keyword) (depth : Nat) : Form (Hooks σ) := do
  let position ← keyword k depth
  let steps ← (step (depth + 1)).many
  return ⟨steps, position⟩

/-- A step among the hooks of a step. -/
def hookStep (depth : Nat) : Form HookStep :=
  step (fun _ => return ()) depth

/-- The hooks of a step. -/
def ownHooks (depth : Nat) : Form OwnHooks := do
  let before ← (hooks hookStep .before depth).optUnless (·.steps.isEmpty)
  let after ← (hooks hookStep .after depth).optUnless (·.steps.isEmpty)
  return ⟨before, after⟩

/-- A step that may have hooks. -/
def mainStep (depth : Nat) : Form MainStep :=
  step ownHooks depth

/-- A script. -/
def script : Form Script := do
  let position ← keyword .issue 0
  let issue ← value
  let markers ← (markers 0).optUnless (·.names.isEmpty)
  let before ← (hooks mainStep .before 0).optUnless (·.steps.isEmpty)
  let after ← (hooks mainStep .after 0).optUnless (·.steps.isEmpty)
  let _ ← keyword .steps 0
  let first ← mainStep 1
  let others ← (mainStep 1).many
  return { issue := ⟨issue.1, issue.2⟩, markers, before, after, steps := first :: others, position }

theorem same_optUnless_bind {F : Form α} {isEmpty : α → Bool} {G : Option α → Form β} :
    (F.optUnless isEmpty >>= G).Same (F.opt >>= fun x => G (x.filter (!isEmpty ·))) :=
  same_bind_assoc.trans (Same.bind (.refl _) fun _ => same_pure_bind)

end Form

/-! ## Sets of tokens -/

/-- The token of one of some keywords at a depth. -/
def keywordsAt (ks : List Keyword) (depth : Nat) : Set Token :=
  { t | ∃ k ∈ ks, t.kind = .keyword k ∧ t.depth = depth }

/-- The identifiers at a depth. -/
def identifiersAt (depth : Nat) : Set Token :=
  { t | (∃ text, t.kind = .identifier text) ∧ t.depth = depth }

/-- A token belongs under a key at a depth: it is a value, an object or a deeper key. -/
def Token.IsUnder (depth : Nat) (t : Token) : Prop :=
  match t.kind with
  | .value _ | .object _ => True
  | .keyword _ | .identifier _ => depth < t.depth

/-- The tokens that belong under a key at a depth. -/
def under (depth : Nat) : Set Token :=
  { t | t.IsUnder depth }

theorem keywordsAt_subset_under {ks : List Keyword} {d depth : Nat} (h : d < depth) :
    keywordsAt ks depth ⊆ under d := by
  intro t h
  obtain ⟨k, -, hk, rfl⟩ := h
  show t.IsUnder d
  simpa [Token.IsUnder, hk] using h

theorem identifiersAt_subset_under {d depth : Nat} (h : d < depth) :
    identifiersAt depth ⊆ under d := by
  intro t h
  obtain ⟨⟨text, htext⟩, rfl⟩ := h
  show t.IsUnder d
  simpa [Token.IsUnder, htext] using h

theorem under_subset_under {d depth : Nat} (h : d ≤ depth) : under depth ⊆ under d := by
  intro t (ht : t.IsUnder depth)
  show t.IsUnder d
  cases hk : t.kind <;> simp only [Token.IsUnder, hk] at ht ⊢ <;> omega

theorem not_isUnder_of_mem_keywordsAt {ks : List Keyword} {depth : Nat} {t : Token}
    (h : t ∈ keywordsAt ks depth) : ¬ t.IsUnder depth := by
  obtain ⟨k, -, hk, rfl⟩ := h
  simp [Token.IsUnder, hk]

theorem not_isUnder_of_mem_identifiersAt {depth : Nat} {t : Token}
    (h : t ∈ identifiersAt depth) : ¬ t.IsUnder depth := by
  obtain ⟨⟨text, htext⟩, rfl⟩ := h
  simp [Token.IsUnder, htext]

theorem disjoint_under_identifiersAt {depth : Nat} :
    Disjoint (under depth) (identifiersAt depth) :=
  Set.disjoint_left.2 fun _ ht hid => not_isUnder_of_mem_identifiersAt hid ht

/-- Clauses of different keywords at one depth: neither a keyword of the one nor anything under
it opens the other. -/
theorem disjoint_keywordsAt {ks ks' : List Keyword} {depth : Nat} (h : ∀ k ∈ ks, k ∉ ks') :
    Disjoint (keywordsAt ks depth ∪ under depth) (keywordsAt ks' depth) := by
  apply Set.disjoint_left.2
  intro t ht hk'
  rcases ht with ⟨k, hk, ht, -⟩ | ht
  · obtain ⟨k', hk', ht', -⟩ := hk'
    rw [ht] at ht'
    cases ht'
    exact h k hk hk'
  · exact not_isUnder_of_mem_keywordsAt hk' ht

/-- Values and objects. -/
def contents : Set Token :=
  { t | (∃ text, t.kind = .value text) ∨ ∃ payload, t.kind = .object payload }

theorem contents_subset_under {depth : Nat} : contents ⊆ under depth := by
  intro t ht
  show t.IsUnder depth
  rcases ht with ⟨text, h⟩ | ⟨payload, h⟩ <;> simp [Token.IsUnder, h]

/-! ## What a script is made of

The tokens of a step are its identifier, keywords one level below, what clauses hold, and the
tokens of its hooks. -/

/-- The keywords of the clauses of a step, but for those of hooks. -/
def clauseKeywords : List Keyword :=
  [.skipEnv, .skip, .markers, .flaky, .parameterize, .foreach, .use, .input, .output]

namespace Form

variable {α β η σ : Type} {S : Set Token}

/-- All tokens of the phrases of a form are in a set. -/
def Within (F : Form α) (S : Set Token) : Prop :=
  ∀ w a, F.Derives w a → ∀ t ∈ w, t ∈ S

theorem Within.pure (a : α) : (Pure.pure a : Form α).Within S := by
  intro w b h t ht
  obtain ⟨rfl, -⟩ := derives_pure.1 h
  simp at ht

theorem Within.bind {F : Form α} {G : α → Form β} (hF : F.Within S) (hG : ∀ a, (G a).Within S) :
    (F >>= G).Within S := by
  intro w b h t ht
  obtain ⟨u, v, a, rfl, ha, hb⟩ := derives_bind.1 h
  rcases List.mem_append.1 ht with ht | ht
  · exact hF u a ha t ht
  · exact hG a v b hb t ht

theorem Within.opt {F : Form α} (hF : F.Within S) : F.opt.Within S := by
  intro w b h t ht
  rcases derives_opt.1 h with ⟨rfl, -⟩ | ⟨a, -, ha⟩
  · simp at ht
  · exact hF w a ha t ht

theorem Within.optUnless {F : Form α} {isEmpty : α → Bool} (hF : F.Within S) :
    (F.optUnless isEmpty).Within S :=
  hF.opt.bind fun _ => Within.pure _

theorem Within.many {F : Form α} (hF : F.Within S) : F.many.Within S := by
  intro w as h t ht
  induction as generalizing w with
  | nil =>
    obtain rfl := derives_many_nil.1 h
    simp at ht
  | cons a as ih =>
    obtain ⟨u, v, rfl, ha, has⟩ := derives_many_cons.1 h
    rcases List.mem_append.1 ht with ht | ht
    · exact hF u a ha t ht
    · exact ih v has ht

theorem Within.token {means : Token → α → Prop} (h : ∀ t a, means t a → t ∈ S) :
    (token means).Within S := by
  intro w a hw t ht
  obtain ⟨t', rfl, ha⟩ := derives_token.1 hw
  obtain rfl := List.mem_singleton.1 ht
  exact h t a ha

/-- The phrases of a form begin with a token of one set; the others are in another. -/
def Headed (F : Form α) (heads : Set Token) (S : Set Token) : Prop :=
  ∀ w a, F.Derives w a → ∃ t u, w = t :: u ∧ t ∈ heads ∧ ∀ x ∈ u, x ∈ S

theorem Headed.within {F : Form α} {heads : Set Token} (hF : F.Headed heads S)
    (h : heads ⊆ S) : F.Within S := by
  intro w a hw t ht
  obtain ⟨s, u, rfl, hs, hu⟩ := hF w a hw
  rcases List.mem_cons.1 ht with rfl | ht
  · exact h hs
  · exact hu t ht

theorem headed_token {means : Token → α → Prop} {C : α → Form β} {heads : Set Token}
    (h : ∀ t a, means t a → t ∈ heads) (hC : ∀ a, (C a).Within S) :
    (Form.token means >>= C).Headed heads S := by
  intro w b hw
  obtain ⟨u, v, a, rfl, ha, hb⟩ := derives_bind.1 hw
  obtain ⟨t, rfl, ht⟩ := derives_token.1 ha
  exact ⟨t, v, rfl, h t a ht, hC a v b hb⟩

theorem headed_clause {k : Keyword} {d : Nat} {C : Position → Form α}
    (hC : ∀ p, (C p).Within S) : (keyword k d >>= C).Headed (keywordsAt [k] d) S :=
  headed_token (fun _ _ h => ⟨k, List.mem_singleton.2 rfl, h.1, h.2.1⟩) hC

/-- A clause is within a set if its keyword is, and what it holds. -/
theorem Within.clause {k : Keyword} {d : Nat} {C : Position → Form α}
    (hk : keywordsAt [k] d ⊆ S) (hC : ∀ p, (C p).Within S) : (keyword k d >>= C).Within S :=
  (headed_clause hC).within hk

theorem within_value (h : contents ⊆ S) : value.Within S :=
  .token fun _ _ ht => h (.inl ⟨_, ht.1⟩)

theorem within_object (h : contents ⊆ S) : object.Within S :=
  .token fun _ _ ht => h (.inr ⟨_, ht.1⟩)

theorem within_markers {d : Nat} (h : contents ⊆ S) (hk : keywordsAt [.markers] d ⊆ S) :
    (markers d).Within S :=
  .clause hk fun _ => (within_value h).many.bind fun _ => .pure _

theorem within_params {k : Keyword} {d : Nat} (h : contents ⊆ S) (hk : keywordsAt [k] d ⊆ S) :
    (params k d).Within S :=
  .clause hk fun _ => (within_object h).bind fun _ => (within_object h).many.bind fun _ => .pure _

theorem within_hooks {step : Nat → Form σ} {k : Keyword} {d : Nat} (hk : keywordsAt [k] d ⊆ S)
    (hstep : (step (d + 1)).Within S) : (hooks step k d).Within S :=
  .clause hk fun _ => hstep.many.bind fun _ => .pure _

theorem headed_step {hooks : Nat → Form η} {d : Nat} (h : contents ⊆ S)
    (hks : keywordsAt clauseKeywords (d + 1) ⊆ S) (hhooks : (hooks (d + 1)).Within S) :
    (step hooks d).Headed (identifiersAt d) S := by
  have hk : ∀ k ∈ clauseKeywords, keywordsAt [k] (d + 1) ⊆ S := by
    intro k hk t h
    obtain ⟨k', hk', ht⟩ := h
    obtain rfl := List.mem_singleton.1 hk'
    exact hks ⟨k', hk, ht⟩
  have hretry : retryCount.Within S := .token fun t n ⟨text, ht, _⟩ => h (.inl ⟨text, ht⟩)
  have hmode : (repeatMode (d + 1)).Within S := by
    refine .token fun t x hx => ?_
    rcases hx with ⟨⟨ht, -⟩ | ⟨ht, -⟩, hd, -⟩
    · exact hks ⟨.parameterize, by decide, ht, hd⟩
    · exact hks ⟨.foreach, by decide, ht, hd⟩
  have hvalue := within_value h
  refine headed_token (fun _ _ ht => ⟨⟨_, ht.1⟩, ht.2.1⟩) fun _ => Within.bind ?_ fun _ =>
    Within.bind ?_ fun _ => Within.bind ?_ fun _ => Within.bind ?_ fun _ => Within.bind ?_ fun _ =>
    hhooks.bind fun _ => Within.bind ?_ fun _ => Within.bind ?_ fun _ => Within.bind ?_ fun _ =>
    .pure _
  · exact (Within.clause (hk _ (by decide)) fun _ => hvalue.bind fun _ => .pure _).opt
  · exact (Within.clause (hk _ (by decide)) fun _ => hvalue.many.bind fun _ => .pure _).opt
  · exact (within_markers h (hk _ (by decide))).optUnless
  · exact (Within.clause (hk _ (by decide)) fun _ => hretry.bind fun _ => .pure _).opt
  · exact (hmode.bind fun _ => (within_object h).bind fun _ => .pure _).opt
  · exact (Within.clause (hk _ (by decide)) fun _ => hvalue.bind fun _ => .pure _).opt
  · exact (within_params h (hk _ (by decide))).opt
  · exact (within_params h (hk _ (by decide))).opt

theorem within_step {hooks : Nat → Form η} {d : Nat} (h : contents ⊆ S)
    (hid : identifiersAt d ⊆ S) (hks : keywordsAt clauseKeywords (d + 1) ⊆ S)
    (hhooks : (hooks (d + 1)).Within S) : (step hooks d).Within S :=
  (headed_step h hks hhooks).within hid

theorem within_ownHooks {d : Nat} (h : contents ⊆ S) (hid : identifiersAt (d + 1) ⊆ S)
    (hhooks : keywordsAt [.before, .after] d ⊆ S)
    (hks : keywordsAt clauseKeywords (d + 2) ⊆ S) : (ownHooks d).Within S := by
  have hk : ∀ k ∈ [Keyword.before, .after], keywordsAt [k] d ⊆ S := by
    intro k hk t h
    obtain ⟨k', hk', ht⟩ := h
    obtain rfl := List.mem_singleton.1 hk'
    exact hhooks ⟨k', hk, ht⟩
  have hstep : (hookStep (d + 1)).Within S := within_step h hid hks (.pure ())
  refine Within.bind ?_ fun _ => Within.bind ?_ fun _ => .pure _
  · exact (within_hooks (hk _ (by decide)) hstep).optUnless
  · exact (within_hooks (hk _ (by decide)) hstep).optUnless

/-- The keywords of a script stand at depths where they are keywords. -/
theorem within_script : script.Within { t | ∀ k, t.kind = .keyword k → t.depth ∈ k.depths } := by
  have hkeywords : ∀ ks d, (∀ k ∈ ks, d ∈ k.depths) →
      keywordsAt ks d ⊆ { t | ∀ k, t.kind = .keyword k → t.depth ∈ k.depths } := by
    intro ks d h t ht k' ht'
    obtain ⟨k, hk, ht, rfl⟩ := ht
    cases ht.symm.trans ht'
    exact h _ hk
  have hcontents : contents ⊆ { t | ∀ k, t.kind = .keyword k → t.depth ∈ k.depths } := by
    intro t ht k hk
    rcases ht with ⟨x, hx⟩ | ⟨x, hx⟩ <;> cases hx.symm.trans hk
  have hid : ∀ d, identifiersAt d ⊆ { t | ∀ k, t.kind = .keyword k → t.depth ∈ k.depths } := by
    intro d t ht k hk
    obtain ⟨⟨text, htext⟩, -⟩ := ht
    cases htext.symm.trans hk
  have hstep : (mainStep 1).Within { t | ∀ k, t.kind = .keyword k → t.depth ∈ k.depths } :=
    within_step hcontents (hid 1) (hkeywords _ _ (by decide))
      (within_ownHooks hcontents (hid 3) (hkeywords _ _ (by decide)) (hkeywords _ _ (by decide)))
  refine Within.clause (hkeywords _ _ (by decide)) fun _ =>
    (within_value hcontents).bind fun _ => Within.bind ?_ fun _ => Within.bind ?_ fun _ =>
    Within.bind ?_ fun _ => Within.clause (hkeywords _ _ (by decide)) fun _ =>
    hstep.bind fun _ => hstep.many.bind fun _ => .pure _
  · exact (within_markers hcontents (hkeywords _ _ (by decide))).optUnless
  · exact (within_hooks (hkeywords _ _ (by decide)) hstep).optUnless
  · exact (within_hooks (hkeywords _ _ (by decide)) hstep).optUnless

end Form
end TestScript.Script
