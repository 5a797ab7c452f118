import TestScript.Proofs.Grammar.Acceptance
import TestScript.Proofs.Layout.Runs

/-!
# What the grammar finds in a document

The tokens of a document are not any list of tokens. Behind a keyword stand the values or the
object that its clause takes, and nothing else; nothing stands behind an identifier that names a
step. So the grammar fails only at a key of the document, at the end, or at a scalar that is no
retry count, and it never misses just an object. The payloads that it hands on are not empty,
and inputs and outputs come one at a time (`fits_of_tokensOf_eq_ok`).
-/

namespace TestScript

open Document (Node Entry)

/-! ## Payloads -/

/-- A payload is an object, or, unless `mappingOnly`, a list, and it is not empty. -/
def Payload.HasContent (mappingOnly : Bool) : Payload → Prop
  | .object members => members ≠ []
  | .list items => mappingOnly = false ∧ items ≠ []
  | .null | .bool _ | .int _ | .float _ | .text _ => False

/-- A step takes one object at most and gives one at most, and what it is repeated for is an
object or a list; none of them is empty. -/
structure Step.HasPayloads {η : Type} (s : Step η) : Prop where
  input : ∀ params ∈ s.input, ∃ param, params = [param] ∧ param.object.HasContent true
  output : ∀ params ∈ s.output, ∃ param, params = [param] ∧ param.object.HasContent true
  parameterize : ∀ found ∈ s.parameterize, found.payload.object.HasContent false

theorem setMember_ne_nil (key : String) (value : Payload) (members : List (String × Payload)) :
    Payload.setMember key value members ≠ [] := by
  cases members with
  | nil => simp [Payload.setMember]
  | cons m ms =>
    rw [Payload.setMember]
    split <;> simp

theorem memberPayloads_ne_nil {entries : List (Entry Node)} {members : List (String × Payload)}
    (h : entries ≠ [] ∨ members ≠ []) : Node.memberPayloads entries members ≠ [] := by
  induction entries generalizing members with
  | nil => simpa [Node.memberPayloads] using h
  | cons e entries ih =>
    rw [Node.memberPayloads]
    exact ih (.inr (setMember_ne_nil _ _ _))

namespace Script

open Grammar

/-- The payload of a blob is not empty either. -/
theorem hasContent_toPayload {mappingOnly : Bool} {value : Node} (h : IsBlob mappingOnly value) :
    value.toPayload.HasContent mappingOnly := by
  cases value with
  | mapping entries p flow =>
    rw [Node.toPayload]
    exact memberPayloads_ne_nil (.inl h)
  | list items p =>
    obtain ⟨hlist, hne⟩ := h
    cases items with
    | nil => exact absurd rfl hne
    | cons item items =>
      rw [Node.toPayload, Node.itemPayloads]
      exact ⟨hlist, List.cons_ne_nil _ _⟩
  | scalar | null => exact h.elim

variable {α β σ η : Type} {xs ys : List Placed} {x : Placed} {s : Lookahead} {d : Nat} {k : Keyword}

/-! ## What stands behind a keyword -/

/-- Behind a keyword of an entry the production takes what belongs to the entry, and more. -/
def TakesOwn (k : Keyword) (d : Nat) (P : α → Prop) (content : Position → Production α) : Prop :=
  ∀ x xs s, Outline (x :: xs) → x.role = .keyword k → x.level = d → s.rest = behindKey x xs →
    Meets d (x :: xs) (fun a _ => P a) (content x.entry.position s)

theorem TakesOwn.map {P : α → Prop} {Q : β → Prop} {content : Position → Production α}
    {g : Position → α → β} (h : TakesOwn k d P content) (hg : ∀ p a, P a → Q (g p a)) :
    TakesOwn k d Q fun p => content p >>= fun a => pure (g p a) :=
  fun x xs s hxs hrole hlevel hrest =>
    (h x xs s hxs hrole hlevel hrest).map fun a _ ha => hg _ a ha

/-- A clause takes the entry of its keyword. -/
theorem TakesOwn.fits_clause {P : α → Prop} {content : Position → Production α}
    (h : TakesOwn k d P content) : Fits d (∀ b ∈ ·, P b) (clause k d content) := by
  intro xs s hxs hrest
  rw [Form.clause_eq_andThen]
  refine meets_keyword hrest (fun s' hrest' _ => ?_) fun x ys s' hx hrole hlevel hrest' => ?_
  · exact .pure (fun b hb => by simp at hb) (hrest'.trans hrest)
  · rw [hx] at hxs ⊢
    exact (h x ys s' hxs hrole hlevel hrest').map fun a _ ha b hb => Option.some.inj hb ▸ ha

theorem accepts_of_outline (h : Outline (x :: xs)) (hrole : x.role = .keyword k) :
    (Role.keyword k).Accepts x.entry.value :=
  hrole ▸ h.accepts x List.mem_cons_self

/-- In front of the tokens of whole entries there is no value and no object. -/
theorem isKey_of_head {t : Token} (hrest : s.rest = xs.flatMap Placed.tokens)
    (ht : t ∈ s.rest.head?) : t.isKey = true := by
  cases xs with
  | nil => simp [hrest] at ht
  | cons x xs =>
    rw [hrest, flatMap_tokens_cons] at ht
    obtain rfl := Option.some.inj ht
    exact x.isKey_keyToken

theorem behindKey_of_ownTokens_eq_nil (h : ownTokens x.role x.level x.entry.value = []) :
    behindKey x xs = xs.flatMap Placed.tokens := by
  rw [behindKey, h, List.nil_append]

/-! ### Values -/

/-- The one value of an entry is its scalar. -/
theorem meets_required_value (hxs : Outline (x :: xs)) (hrole : x.role = .keyword k)
    (hk : k.shape = .scalar) (hrest : s.rest = behindKey x xs) :
    Meets x.level (x :: xs) (fun a _ => ∃ quoted, x.entry.value = .scalar a.1 quoted a.2)
      (required value s) := by
  have haccepts := accepts_of_outline hxs hrole
  simp only [Role.Accepts, hk] at haccepts
  have hmarkers : k ≠ .markers := fun h => by simp [h, Keyword.shape] at hk
  have hown : ownTokens x.role x.level x.entry.value =
      textTokens x.level (texts false x.entry.value) := by
    simp [ownTokens, Role.isBlob, hrole, hk, hmarkers]
  cases hvalue : x.entry.value with
  | scalar text quoted p =>
    have hbehind : s.rest = ⟨.value text, p, x.level⟩ :: xs.flatMap Placed.tokens := by
      rw [hrest, behindKey, hown, hvalue]
      rfl
    obtain ⟨rest, refused, last⟩ := s
    obtain rfl := hbehind
    rw [value_of_kind rfl]
    exact .ok ⟨quoted, rfl⟩ (.cons le_rfl xs) rfl
  | null p =>
    have hrest' : s.rest = xs.flatMap Placed.tokens := by
      rw [hrest, behindKey, hown, hvalue]
      rfl
    have hnone : ∀ t ∈ s.rest.head?, ∀ text, t.kind ≠ .value text := by
      intro t ht text htext
      simpa [Token.isKey, htext] using isKey_of_head hrest' ht
    have hrefused : (refuse "VALUE" s).rest = xs.flatMap Placed.tokens :=
      (rest_refuse _ _).trans hrest'
    rw [value_of_ne hnone, unexpected_eq]
    exact .error ((isAbout_fault hrefused (mem_refused_refuse_self _ _) (by decide)).mono
      (List.subset_cons_self x xs))
  | list | mapping =>
    rw [hvalue] at haccepts
    exact haccepts.elim

theorem takesOwn_value (hk : k.shape = .scalar) :
    TakesOwn k d (fun _ => True) fun _ => required value := by
  rintro x xs s hxs hrole rfl hrest
  exact (meets_required_value hxs hrole hk hrest).mono le_rfl fun _ _ _ => trivial

/-- A scalar that is no retry count is what the error is about. -/
theorem takesOwn_retryCount : TakesOwn .flaky d (fun _ => True) fun _ => retryCount := by
  rintro x xs s hxs hrole rfl hrest
  refine (meets_required_value hxs hrole rfl hrest).bind fun a s' ys _ ha hleaves hrest' => ?_
  obtain ⟨quoted, hvalue⟩ := ha
  dsimp only
  cases retries? a.1 with
  | some n => exact .ok trivial hleaves hrest'
  | none => exact .error ⟨rfl, x, List.mem_cons_self, hrole, quoted, hvalue⟩

/-- All values in front of an entry are taken. -/
theorem meets_many_value {level : Nat} {texts : List (String × Position)}
    (hrest : s.rest = textTokens level texts ++ xs.flatMap Placed.tokens) :
    Meets d xs (fun _ _ => True) (many value s) := by
  induction texts generalizing s with
  | nil =>
    have hnone : value s = .ok (none, refuse "VALUE" s) := by
      refine accept_of_none fun t ht => ?_
      have hkey := @isKey_of_head xs s t hrest ht
      cases hkind : t.kind with
      | value text => simp [Token.isKey, hkind] at hkey
      | _ => rfl
    rw [Form.many_eq Form.not_spells_token Form.reads_value, bind_of_ok hnone]
    exact .ok trivial (.refl d xs) ((rest_refuse _ _).trans hrest)
  | cons y texts ih =>
    obtain ⟨rest, refused, last⟩ := s
    obtain rfl : rest = ⟨.value y.1, y.2, level⟩ ::
      (textTokens level texts ++ xs.flatMap Placed.tokens) := hrest
    have hsome : value ⟨⟨.value y.1, y.2, level⟩ ::
        (textTokens level texts ++ xs.flatMap Placed.tokens), refused, last⟩ =
        .ok (some y, ⟨textTokens level texts ++ xs.flatMap Placed.tokens, [], y.2⟩) :=
      accept_of_some rfl
    rw [Form.many_eq Form.not_spells_token Form.reads_value, bind_of_ok hsome]
    exact (ih rfl).map fun _ _ _ => trivial

theorem takesOwn_values (hk : k.shape = .scalars ∨ k.shape = .names) :
    TakesOwn k d (fun _ => True) fun _ => values := by
  rintro x xs s hxs hrole rfl hrest
  have hown : ownTokens x.role x.level x.entry.value =
      textTokens x.level (texts (x.role = .keyword .markers) x.entry.value) := by
    rcases hk with hk | hk <;> simp [ownTokens, Role.isBlob, hrole, hk]
  rw [behindKey, hown] at hrest
  have hvalues : Meets x.level xs (fun _ _ => True) (values s) :=
    (meets_many_value hrest).map fun _ _ _ => trivial
  exact hvalues.of_leaves (.cons le_rfl xs)

/-! ### Objects -/

/-- The object of an entry is there, and it is not empty. -/
theorem takesOwn_object {mappingOnly : Bool} (hk : k.shape = .blob mappingOnly) :
    TakesOwn k d (fun a => a.object.HasContent mappingOnly) fun _ => required object := by
  rintro x xs s hxs hrole rfl hrest
  have haccepts := accepts_of_outline hxs hrole
  simp only [Role.Accepts, hk] at haccepts
  obtain ⟨rest, refused, last⟩ := s
  obtain rfl : rest = ⟨.object x.entry.value.toPayload, x.entry.value.position, x.level⟩ ::
      xs.flatMap Placed.tokens := by
    rw [show rest = behindKey x xs from hrest, behindKey]
    simp [ownTokens, Role.isBlob, hrole, hk]
  exact .ok (hasContent_toPayload haccepts) (.cons le_rfl xs) rfl

/-- In front of an entry there is no further object. -/
theorem fits_objects : Fits d (· = []) (many object) := by
  intro xs s _ hrest
  have hnone : object s = .ok (none, refuse "OBJECT" s) := by
    refine accept_of_none fun t ht => ?_
    have hkey := isKey_of_head hrest ht
    cases hkind : t.kind with
    | object payload => simp [Token.isKey, hkind] at hkey
    | _ => rfl
  rw [Form.many_eq Form.not_spells_token Form.reads_object, bind_of_ok hnone]
  exact .ok rfl (.refl d xs) ((rest_refuse _ _).trans hrest)

/-! ## Clauses -/

theorem fits_markers (d : Nat) : Fits d (fun _ => True) (Grammar.markers d) := by
  have hcontent : TakesOwn .markers d (fun _ => True) fun p => do
      return (⟨← values, p⟩ : Markers) :=
    (takesOwn_values (.inr rfl)).map fun _ _ _ => trivial
  exact hcontent.fits_clause.map fun _ _ => trivial

theorem fits_skipEnv (d : Nat) : Fits d (fun _ => True) (skipEnv d) := by
  have hcontent : TakesOwn .skipEnv d (fun _ => True) fun p => do
      return (⟨(← required value).1, p⟩ : SkipEnv) :=
    (takesOwn_value rfl).map fun _ _ _ => trivial
  exact hcontent.fits_clause.mono fun _ _ => trivial

theorem fits_skip (d : Nat) : Fits d (fun _ => True) (skip d) := by
  have hcontent : TakesOwn .skip d (fun _ => True) fun p => do
      let words ← values
      return (⟨if words.isEmpty then none else some (" ".intercalate words), p⟩ : Skip) :=
    (takesOwn_values (.inl rfl)).map fun _ _ _ => trivial
  exact hcontent.fits_clause.mono fun _ _ => trivial

theorem fits_flaky (d : Nat) : Fits d (fun _ => True) (flaky d) := by
  have hcontent : TakesOwn .flaky d (fun _ => True) fun p => do
      let retries ← retryCount
      return (⟨retries, p⟩ : Flaky) :=
    takesOwn_retryCount.map fun _ _ _ => trivial
  rw [flaky_eq]
  exact hcontent.fits_clause.mono fun _ _ => trivial

theorem fits_parameterize (d : Nat) :
    Fits d (fun found => ∀ a ∈ found, a.payload.object.HasContent false) (parameterize d) := by
  have hcontent : ∀ (k : Keyword) (mode : RepeatMode), k.shape = .blob false →
      TakesOwn k d (fun a => a.payload.object.HasContent false) fun p => do
        let payload ← required object
        return (⟨mode, payload, p⟩ : Parameterize) :=
    fun k mode hk => (takesOwn_object hk).map fun _ _ h => h
  rw [Form.parameterize_eq]
  exact (hcontent .parameterize .parameterize rfl).fits_clause.orElse
    (hcontent .foreach .foreach rfl).fits_clause

theorem fits_use (d : Nat) : Fits d (fun _ => True) (use d) := by
  have hcontent : TakesOwn .use d (fun _ => True) fun p => do
      return (⟨(← required value).1, p⟩ : Use) :=
    (takesOwn_value rfl).map fun _ _ _ => trivial
  exact hcontent.fits_clause.mono fun _ _ => trivial

/-- The one object of an input or an output is all that is taken. -/
theorem fits_params (hk : k.shape = .blob true) (d : Nat) :
    Fits d (fun found => ∀ params ∈ found,
      ∃ param, params = [param] ∧ param.object.HasContent true) (params k d) := by
  refine TakesOwn.fits_clause fun x xs s hxs hrole hlevel hrest => ?_
  have hfirst := takesOwn_object hk x xs s hxs hrole hlevel hrest
  refine hfirst.andThen fun param s' ys _ hparam hleaves hrest' => ?_
  have hmany := fits_objects (d := d) ys s' (hxs.of_leaves hleaves) hrest'
  refine hmany.map fun others _ hothers => ⟨param, ?_, hparam⟩
  rw [hothers]

/-! ## Steps -/

/-- In front of entries that stand in a section of steps a production takes a step. -/
def StepsFit (d : Nat) (P : σ → Prop) (p : Production (Option σ)) : Prop :=
  ∀ xs s, Outline xs → Under .steps d xs → s.rest = xs.flatMap Placed.tokens →
    Meets d xs (fun a s' => (∀ b ∈ a, P b) ∧ (a = none → "ID" ∈ s'.refused)) (p s)

/-- Behind steps another one is possible. -/
theorem StepsFit.many {F : Form σ} {P : σ → Prop} {p : Production (Option σ)}
    (hp : StepsFit d P p) (hsteps : Form.Steps d F p) (hxs : Outline xs)
    (hunder : Under .steps d xs) (hrest : s.rest = xs.flatMap Placed.tokens) :
    Meets d xs (fun as s' => (∀ a ∈ as, P a) ∧ "ID" ∈ s'.refused) (Grammar.many p s) := by
  induction hn : s.rest.length using Nat.strongRecOn generalizing xs s with
  | ind n ih =>
    rw [Form.many_eq hsteps.not_spells hsteps.reads]
    refine (hp xs s hxs hunder hrest).andThen fun a s' ys hrun ha hleaves hrest' => ?_
    cases a with
    | none => exact .pure ⟨fun a ha => by simp at ha, ha.2 rfl⟩ hrest'
    | some a =>
      have hlt : s'.rest.length < n := hn ▸ hsteps.reads.length_lt hsteps.not_spells hrun
      have hothers := ih _ hlt (hxs.of_leaves hleaves) (hunder.of_leaves hleaves) hrest' rfl
      refine hothers.map fun as _ has => ⟨?_, has.2⟩
      exact List.forall_mem_cons.2 ⟨ha.1 a rfl, has.1⟩

theorem ownTokens_of_isLevel {role : Role} {level : Nat} {value : Node}
    (hrole : role.isBlob = false) (h : IsLevel value) : ownTokens role level value = [] := by
  cases value with
  | mapping | null => simp [ownTokens, hrole, textTokens, texts]
  | scalar | list => exact h.elim

/-- Below the keyword of a section stand steps. -/
theorem under_of_section (hxs : Outline (x :: xs)) (hrole : x.role = .keyword k)
    (hk : k.shape = .steps) :
    behindKey x xs = xs.flatMap Placed.tokens ∧ Under .steps (x.level + 1) xs := by
  have haccepts := accepts_of_outline hxs hrole
  simp only [Role.Accepts, hk] at haccepts
  have hopens : x.role.opens = some .steps := by simp [hrole, Role.opens, hk]
  have hown : ownTokens x.role x.level x.entry.value = [] :=
    ownTokens_of_isLevel (Layout.isBlob_of_opens hopens) haccepts
  refine ⟨behindKey_of_ownTokens_eq_nil hown, ?_⟩
  simpa [hopens] using hxs.nested.1

theorem takesOwn_steps {F : Form σ} {P : σ → Prop} {p : Production (Option σ)}
    (hk : k.shape = .steps) (hp : StepsFit (d + 1) P p) (hsteps : Form.Steps (d + 1) F p) :
    TakesOwn k d (∀ a ∈ ·, P a) fun _ => many p := by
  rintro x xs s hxs hrole rfl hrest
  obtain ⟨hbehind, hunder⟩ := under_of_section hxs hrole hk
  have hleaves := Leaves.cons (le_refl x.level) xs
  have hmany := hp.many hsteps (hxs.of_leaves hleaves) hunder (hrest.trans hbehind)
  exact (hmany.mono (Nat.le_succ _) fun _ _ h => h.1).of_leaves hleaves

theorem fits_hooksOf {F : Nat → Form σ} {P : σ → Prop} {p : Nat → Production (Option σ)}
    (hk : k.shape = .steps) (hp : StepsFit (d + 1) P (p (d + 1)))
    (hsteps : Form.Steps (d + 1) (F (d + 1)) (p (d + 1))) :
    Fits d (fun a => ∀ b ∈ Hooks.stepsOf a, P b) (hooksOf p k d) := by
  have hcontent : TakesOwn k d (fun a : Hooks σ => ∀ b ∈ a.steps, P b) fun position => do
      return (⟨← many (p (d + 1)), position⟩ : Hooks σ) :=
    (takesOwn_steps hk hp hsteps).map fun _ _ h => h
  refine hcontent.fits_clause.map fun a ha b hb => ?_
  cases a with
  | none => simp [Hooks.stepsOf] at hb
  | some a =>
    refine ha a rfl b ?_
    rw [Option.filter_some] at hb
    split at hb
    · exact hb
    · simp [Hooks.stepsOf] at hb

/-- A key that is no keyword names a step where steps are expected. -/
theorem role_eq_step (hcontext : x.context = .steps) (h : ∀ k, x.role ≠ .keyword k) :
    x.role = .step := by
  unfold Placed.role Role.of at h ⊢
  rw [hcontext] at h ⊢
  cases hk : Keyword.classify? x.entry.key x.level with
  | none => rfl
  | some k => simp [hk] at h

theorem stepsFit_step {H : η → Prop} {readHooks : Nat → Production η}
    (hhooks : Fits (d + 1) H (readHooks (d + 1))) :
    StepsFit d (fun step => step.HasPayloads ∧ H step.hooks) (Grammar.step readHooks d) := by
  have hclauses := fun name : String × Position =>
    (fits_skipEnv (d + 1)).bind fun skipEnv _ =>
    (fits_skip (d + 1)).bind fun skip _ =>
    (fits_markers (d + 1)).bind fun markers _ =>
    (fits_flaky (d + 1)).bind fun flaky _ =>
    (fits_parameterize (d + 1)).bind fun parameterize hparameterize =>
    hhooks.bind fun hooks hhooks =>
    (fits_use (d + 1)).bind fun uses _ =>
    (fits_params (k := .input) rfl (d + 1)).bind fun input hinput =>
    (fits_params (k := .output) rfl (d + 1)).bind fun output houtput =>
    Fits.pure (d := d + 1) (P := fun step : Step η => step.HasPayloads ∧ H step.hooks)
      (a := { id := name.1, skipEnv, skip, markers, flaky, parameterize, hooks, uses, input, output,
              position := name.2 })
      ⟨⟨hinput, houtput, hparameterize⟩, hhooks⟩
  intro xs s hxs hunder hrest
  rw [Form.step_eq]
  refine meets_identifier hrest (fun s' hrest' hid => ?_)
    fun x ys s' name hx hrole hlevel hrest' => ?_
  · exact .pure ⟨fun b hb => by simp at hb, fun _ => hid⟩ (hrest'.trans hrest)
  · subst hx hlevel
    have hstep : x.role = .step := role_eq_step (hunder.head rfl) hrole
    have haccepts : IsLevel x.entry.value := by
      simpa [hstep, Role.Accepts] using hxs.accepts x List.mem_cons_self
    have hown : ownTokens x.role x.level x.entry.value = [] :=
      ownTokens_of_isLevel (by rw [hstep]; rfl) haccepts
    have hleaves := Leaves.cons (le_refl x.level) ys
    rw [behindKey_of_ownTokens_eq_nil hown] at hrest'
    have hbody := (hclauses name ys s' (hxs.of_leaves hleaves) hrest').mono (Nat.le_succ _)
      fun _ _ h => h
    refine Meets.of_leaves (hbody.map fun step _ h => ?_) hleaves
    exact ⟨fun b hb => Option.some.inj hb ▸ h, fun h => by cases h⟩

theorem stepsFit_hookStep (d : Nat) : StepsFit d Step.HasPayloads (hookStep d) := by
  intro xs s hxs hunder hrest
  have hnone : Fits (d + 1) (fun _ => True) (return () : Production Unit) := .pure trivial
  have hstep := @stepsFit_step Unit d _ (fun _ => return ()) hnone
  refine (hstep xs s hxs hunder hrest).mono le_rfl ?_
  exact fun a _ h => ⟨fun b hb => (h.1 b hb).1, h.2⟩

theorem fits_ownHooks (d : Nat) :
    Fits d (fun own => ∀ b ∈ Hooks.stepsOf own.before ++ Hooks.stepsOf own.after, b.HasPayloads)
      (ownHooks d) :=
  (fits_hooksOf (k := .before) rfl (stepsFit_hookStep _) (Form.steps_hookStep _)).bind
    fun _ hbefore =>
  (fits_hooksOf (k := .after) rfl (stepsFit_hookStep _) (Form.steps_hookStep _)).map
    fun _ hafter => List.forall_mem_append.2 ⟨hbefore, hafter⟩

theorem stepsFit_mainStep (d : Nat) :
    StepsFit d (fun step => ∀ b ∈ step.block, b.HasPayloads) (mainStep d) := by
  intro xs s hxs hunder hrest
  refine (stepsFit_step (fits_ownHooks _) xs s hxs hunder hrest).mono le_rfl ?_
  refine fun a _ h => ⟨fun step hstep b hb => ?_, h.2⟩
  obtain ⟨hown, hhooks⟩ := h.1 step hstep
  rw [Step.block, List.mem_append, List.mem_cons] at hb
  rcases hb with hb | rfl | hb
  · exact hhooks b (List.mem_append_left _ hb)
  · exact ⟨hown.input, hown.output, hown.parameterize⟩
  · exact hhooks b (List.mem_append_right _ hb)

/-! ## Scripts -/

theorem meets_required_keyword {Q : β → Lookahead → Prop} {f : Position → Production β}
    (hrest : s.rest = xs.flatMap Placed.tokens)
    (hf : ∀ x ys s', xs = x :: ys → x.role = .keyword k → x.level = d → s'.rest = behindKey x ys →
      Meets d xs Q (f x.entry.position s')) :
    Meets d xs Q ((required (keyword k d) >>= f) s) := by
  have hne : k.terminal ≠ "OBJECT" := by cases k <;> decide
  rw [required, bind_assoc]
  refine meets_keyword hrest (fun s' hrest' hmem => ?_) hf
  have hnone : Meets d xs (fun _ _ => False) ((unexpected : Production Position) s') :=
    .unexpected (hrest'.trans hrest) hmem hne
  exact hnone.andThen fun _ _ _ _ h => h.elim

/-- The main steps, from their keyword on. -/
theorem meets_steps (hxs : Outline xs) (hrest : s.rest = xs.flatMap Placed.tokens)
    {Q : β → Lookahead → Prop} {g : List MainStep → β}
    (hg : ∀ steps s', (∀ step ∈ steps, ∀ b ∈ Step.block step, b.HasPayloads) →
      "ID" ∈ s'.refused → Q (g steps) s') :
    Meets 0 xs Q ((do
      let _ ← required (keyword .steps 0)
      let first ← required (mainStep 1)
      let others ← many (mainStep 1)
      return g (first :: others)) s) := by
  refine meets_required_keyword hrest fun x ys s' hx hrole hlevel hrest' => ?_
  subst hx
  obtain ⟨hbehind, hunder⟩ := under_of_section hxs hrole rfl
  rw [hlevel] at hunder
  have hys := hxs.of_leaves (Leaves.cons (le_refl x.level) ys)
  have hfirst := stepsFit_mainStep 1 ys s' hys hunder (hrest'.trans hbehind)
  have hsteps : Meets 1 ys Q ((do
      let first ← required (mainStep 1)
      let others ← many (mainStep 1)
      return g (first :: others)) s') := by
    refine (Meets.required (by decide) hfirst).andThen
      fun first s'' zs _ hfirst hleaves hrest'' => ?_
    have hothers := (stepsFit_mainStep 1).many (Form.steps_mainStep 1) (hys.of_leaves hleaves)
      (hunder.of_leaves hleaves) hrest''
    refine hothers.map fun others _ h => ?_
    exact hg _ _ (List.forall_mem_cons.2 ⟨hfirst, h.1⟩) h.2
  exact (hsteps.mono (Nat.zero_le 1) fun _ _ h => h).of_leaves (.cons (Nat.zero_le x.level) ys)

theorem meets_body (hxs : Outline xs) (hrest : s.rest = xs.flatMap Placed.tokens) :
    Meets 0 xs (fun script s' => (∀ b ∈ script.allSteps, b.HasPayloads) ∧ "ID" ∈ s'.refused)
      (body s) := by
  refine meets_required_keyword hrest fun x ys s' hx hrole hlevel hrest' => ?_
  subst hx
  have hissue := meets_required_value hxs hrole rfl hrest'
  rw [hlevel] at hissue
  refine hissue.andThen fun issue s₁ xs₁ _ _ hleaves hrest₁ => ?_
  have hxs₁ := hxs.of_leaves hleaves
  refine (fits_markers 0 xs₁ s₁ hxs₁ hrest₁).andThen fun markers s₂ xs₂ _ _ hleaves hrest₂ => ?_
  have hxs₂ := hxs₁.of_leaves hleaves
  have hbefore := fits_hooksOf (k := .before) rfl (stepsFit_mainStep 1) (Form.steps_mainStep 1)
  refine (hbefore xs₂ s₂ hxs₂ hrest₂).andThen fun before s₃ xs₃ _ hbefore hleaves hrest₃ => ?_
  have hxs₃ := hxs₂.of_leaves hleaves
  have hafter := fits_hooksOf (k := .after) rfl (stepsFit_mainStep 1) (Form.steps_mainStep 1)
  refine (hafter xs₃ s₃ hxs₃ hrest₃).andThen fun after s₄ xs₄ _ hafter hleaves hrest₄ => ?_
  refine meets_steps (hxs₃.of_leaves hleaves) hrest₄ (g := fun steps =>
    ({ issue := ⟨issue.1, issue.2⟩, markers, before, after, steps, position := x.entry.position } :
      Script)) fun steps s' hsteps hid => ?_
  refine ⟨fun b hb => ?_, hid⟩
  simp only [allSteps, List.flatMap_append, List.mem_append, List.mem_flatMap] at hb
  rcases hb with (⟨step, hstep, hb⟩ | ⟨step, hstep, hb⟩) | ⟨step, hstep, hb⟩
  · exact hbefore step hstep b hb
  · exact hsteps step hstep b hb
  · exact hafter step hstep b hb

/-- Behind a script another step is possible, so not just an object is missing there. -/
theorem meets_atEnd {script : Script} (hrest : s.rest = xs.flatMap Placed.tokens)
    (hid : "ID" ∈ s.refused) : Meets d xs (fun a _ => a = script) (atEnd script s) := by
  obtain ⟨rest, refused, last⟩ := s
  cases rest with
  | nil => exact .ok rfl (.refl d xs) hrest
  | cons t rest =>
    rw [atEnd_cons]
    exact .error (isAbout_fault hrest hid (by decide))

theorem fits_script : Fits 0 (fun s => ∀ b ∈ s.allSteps, b.HasPayloads) script := by
  intro xs s hxs hrest
  rw [script_eq]
  refine (meets_body hxs hrest).andThen fun script s' ys _ hscript _ hrest' => ?_
  exact (meets_atEnd hrest' hscript.2).mono le_rfl fun a _ ha => ha ▸ hscript.1

/-- **The grammar finds in a document what it asks for.** Where the tokens of a document are no
script, that shows at a key, at the scalar of a flaky key or at the end, and what is missing is
not just an object. Where they are one, each input and each output is one object, and no payload
is empty. -/
theorem fits_of_tokensOf_eq_ok {unit : Nat} {root : Node} {ts : List Token}
    (h : tokensOf unit root = .ok ts) :
    (∀ e, ofTokens ts = .error e → e.IsAbout (placed root)) ∧
      ∀ s, ofTokens ts = .ok s → ∀ step ∈ s.allSteps, step.HasPayloads := by
  obtain ⟨-, hlaid, rfl⟩ := tokensOf_eq_ok_iff.1 h
  have houtline : Outline (placed root) := ⟨fun x hx => (hlaid x hx).accepts, nested_placed root⟩
  have hmeets := fits_script _ { rest := (placed root).flatMap Placed.tokens } houtline rfl
  cases hrun : script { rest := (placed root).flatMap Placed.tokens } with
  | error e =>
    rw [hrun] at hmeets
    rw [ofTokens_of_error hrun]
    cases hmeets with
    | error he =>
      refine ⟨fun e' he' => ?_, fun s hs => (by cases hs)⟩
      cases he'
      exact he
  | ok r =>
    obtain ⟨s, l⟩ := r
    rw [hrun] at hmeets
    rw [ofTokens_of_ok hrun]
    cases hmeets with
    | ok hs =>
      refine ⟨fun e he => (by cases he), fun s' hs' => ?_⟩
      cases hs'
      exact hs

/-- A document with one step, which is tried again and is repeated for two texts. -/
def retriedRoot (retries : String) : Node :=
  .mapping
    [⟨"issue", ⟨0, 0⟩, .scalar "T-1" false ⟨0, 7⟩⟩,
      ⟨"steps", ⟨1, 0⟩, .mapping
        [⟨"login", ⟨2, 2⟩, .mapping
          [⟨"flaky", ⟨3, 4⟩, .scalar retries false ⟨3, 11⟩⟩,
            ⟨"foreach", ⟨4, 4⟩,
              .list [.scalar "a" true ⟨4, 14⟩, .scalar "b" true ⟨4, 19⟩] ⟨4, 13⟩⟩,
            ⟨"input", ⟨5, 4⟩, .mapping [⟨"user", ⟨5, 12⟩, .null ⟨5, 17⟩⟩] ⟨5, 11⟩ true⟩]
          ⟨3, 4⟩ false⟩]
        ⟨2, 2⟩ false⟩]
    ⟨0, 0⟩ false

/-- A text is no retry count; with a number the step has its payloads. -/
theorem fits_retried :
    GrammarError.IsAbout
        ⟨.invalidValue "flaky" "often" "retry count must be a non-negative integer", ⟨3, 11⟩⟩
        (placed (retriedRoot "often")) ∧
      ∃ step : HookStep, step.id = "login" ∧
        step.input = some [⟨.object [("user", .null)], ⟨5, 11⟩⟩] ∧ step.HasPayloads := by
  refine ⟨(@fits_of_tokensOf_eq_ok 2 (retriedRoot "often") _ (by rfl)).1 _ (by rfl), ?_⟩
  exact ⟨_, rfl, rfl,
    (@fits_of_tokensOf_eq_ok 2 (retriedRoot "2") _ (by rfl)).2 _ (by rfl) _ List.mem_cons_self⟩

end Script
end TestScript
