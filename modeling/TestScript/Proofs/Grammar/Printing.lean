import TestScript.Proofs.Grammar.Acceptance

/-!
# Scripts are printed and read

Which scripts can be read at all, and that reading undoes printing. A script is printed in the order
of its grammar, clause by clause, with each name, reason and number as one value. The scripts that
some list of tokens is read as are the well-formed ones, and they are read from their own tokens
(`read_iff_isWellFormed`).

A form is **printed** by a function if its meanings are just those of one kind, and it derives what
the function makes of them (`Form.Prints`). That is proved along the forms of the grammar, where a
phrase may stop anywhere. So nothing is asked here about where the reader stops.
-/

namespace TestScript

variable {η σ : Type}

/-! ## Well-formed scripts

The types of scripts say already that the steps among the hooks of a step have no hooks. -/

/-- There is a step, and all steps are in order. -/
structure Hooks.IsWellFormed (StepOk : σ → Prop) (h : Hooks σ) : Prop where
  ne_nil : h.steps ≠ []
  steps : ∀ s ∈ h.steps, StepOk s

/-- No clause is there without what it holds, and 32 bits hold the retries. -/
structure Step.IsWellFormed (HooksOk : η → Prop) (s : Step η) : Prop where
  markers : ∀ m ∈ s.markers, m.names ≠ []
  flaky : ∀ f ∈ s.flaky, f.retries < Nat.pow 2 32
  hooks : HooksOk s.hooks
  input : ∀ xs ∈ s.input, xs ≠ []
  output : ∀ xs ∈ s.output, xs ≠ []

def HookStep.IsWellFormed : HookStep → Prop :=
  Step.IsWellFormed fun _ => True

structure OwnHooks.IsWellFormed (own : OwnHooks) : Prop where
  before : ∀ h ∈ own.before, h.IsWellFormed HookStep.IsWellFormed
  after : ∀ h ∈ own.after, h.IsWellFormed HookStep.IsWellFormed

def MainStep.IsWellFormed : MainStep → Prop :=
  Step.IsWellFormed OwnHooks.IsWellFormed

structure Script.IsWellFormed (s : Script) : Prop where
  markers : ∀ m ∈ s.markers, m.names ≠ []
  before : ∀ h ∈ s.before, h.IsWellFormed MainStep.IsWellFormed
  after : ∀ h ∈ s.after, h.IsWellFormed MainStep.IsWellFormed
  ne_nil : s.steps ≠ []
  steps : ∀ m ∈ s.steps, m.IsWellFormed

namespace Script

variable {α β : Type} {d : Nat}

/-! ## The tokens of a script

A script does not keep where the values of its clauses stand, nor the keywords of its payloads and
of its main steps. These are printed at a place `p`. -/

namespace Printer

/-- The tokens of a part that may be missing. -/
def optional (print : α → List Token) : Option α → List Token
  | some a => print a
  | none => []

variable (p : Position)

def markers (d : Nat) (m : Markers) : List Token :=
  ⟨.keyword .markers, m.position, d⟩ :: m.names.map fun name => ⟨.value name, p, d⟩

def skipEnv (d : Nat) (s : SkipEnv) : List Token :=
  [⟨.keyword .skipEnv, s.position, d⟩, ⟨.value s.env, p, d⟩]

/-- A reason is one value, whatever blanks it has. -/
def skip (d : Nat) (s : Skip) : List Token :=
  ⟨.keyword .skip, s.position, d⟩ :: s.reason.toList.map fun reason => ⟨.value reason, p, d⟩

def flaky (d : Nat) (f : Flaky) : List Token :=
  [⟨.keyword .flaky, f.position, d⟩, ⟨.value (toString f.retries), p, d⟩]

def param (d : Nat) (x : Param) : Token :=
  ⟨.object x.object, x.position, d⟩

/-- The keyword of a mode. -/
def modeKeyword : RepeatMode → Keyword
  | .parameterize => .parameterize
  | .foreach => .foreach

def parameterize (d : Nat) (x : Parameterize) : List Token :=
  [⟨.keyword (modeKeyword x.mode), x.position, d⟩, param d x.payload]

def use (d : Nat) (u : Use) : List Token :=
  [⟨.keyword .use, u.position, d⟩, ⟨.value u.call, p, d⟩]

def params (k : Keyword) (d : Nat) (xs : List Param) : List Token :=
  ⟨.keyword k, p, d⟩ :: xs.map (param d)

/-- A section of steps; `step` prints a step whose identifier has a depth. -/
def hooks (step : Nat → σ → List Token) (k : Keyword) (d : Nat) (h : Hooks σ) : List Token :=
  ⟨.keyword k, h.position, d⟩ :: h.steps.flatMap (step (d + 1))

/-- A step whose identifier has a depth; `hooks` prints its hooks. -/
def step (hooks : Nat → η → List Token) (d : Nat) (s : Step η) : List Token :=
  ⟨.identifier s.id, s.position, d⟩ ::
    [optional (skipEnv p (d + 1)) s.skipEnv,
      optional (skip p (d + 1)) s.skip,
      optional (markers p (d + 1)) s.markers,
      optional (flaky p (d + 1)) s.flaky,
      optional (parameterize (d + 1)) s.parameterize,
      hooks (d + 1) s.hooks,
      optional (use p (d + 1)) s.uses,
      optional (params p .input (d + 1)) s.input,
      optional (params p .output (d + 1)) s.output].flatten

def hookStep : Nat → HookStep → List Token :=
  step p fun _ _ => []

def ownHooks (d : Nat) (own : OwnHooks) : List Token :=
  [optional (hooks (hookStep p) .before d) own.before,
    optional (hooks (hookStep p) .after d) own.after].flatten

def mainStep : Nat → MainStep → List Token :=
  step p (ownHooks p)

/-- The tokens of a script, whose clauses have depth 0. -/
def script (s : Script) : List Token :=
  ⟨.keyword .issue, s.position, 0⟩ :: ⟨.value s.issue.id, s.issue.position, 0⟩ ::
    [optional (markers p 0) s.markers,
      optional (hooks (mainStep p) .before 0) s.before,
      optional (hooks (mainStep p) .after 0) s.after,
      [⟨.keyword .steps, p, 0⟩],
      s.steps.flatMap (mainStep p 1)].flatten

end Printer

/-! ## Numbers in decimal -/

theorem trimBlanks_of_not_blank {cs : List Char} (h : ∀ c ∈ cs, Text.isBlank c = false) :
    Text.trimBlanks cs = cs := by
  have hdrop : ∀ cs : List Char, (∀ c ∈ cs, Text.isBlank c = false) →
      cs.dropWhile Text.isBlank = cs := by
    intro cs h
    cases cs with
    | nil => rfl
    | cons c cs => rw [List.dropWhile_cons_of_neg (by simp [h c List.mem_cons_self])]
  rw [Text.trimBlanks, hdrop cs h, hdrop _ fun c hc => h c (List.mem_reverse.1 hc),
    List.reverse_reverse]

theorem isBlank_eq_false_of_isDigit {c : Char} (h : c.isDigit) : Text.isBlank c = false := by
  have hrange : 48 ≤ c.toNat ∧ c.toNat ≤ 57 := by
    simpa [Char.isDigit, UInt32.le_iff_toNat_le] using h
  simp only [Text.isBlank]
  grind

/-- A number in decimal is read as that number. -/
theorem isRetryCount_toString {n : Nat} (h : n < Nat.pow 2 32) : IsRetryCount (toString n) n := by
  have hdigits : ∀ c ∈ Nat.toDigits 10 n, c.isDigit := fun c hc =>
    Nat.isDigit_of_mem_toDigits (by decide) (by decide) hc
  refine ⟨[], Nat.toDigits 10 n, ?_, .inl rfl, Nat.toDigits_ne_nil, hdigits, ?_, h⟩
  · rw [Nat.toString_eq_ofList_toDigits, String.toList_ofList, List.nil_append,
      trimBlanks_of_not_blank fun c hc => isBlank_eq_false_of_isDigit (hdigits c hc)]
  · exact Nat.ofDigitChars_ten_toDigits

/-! ## Forms that are printed -/

namespace Form

/-- The meanings of a form are those that are in order, and it derives what is printed for them. -/
structure Prints (F : Form α) (Ok : α → Prop) (print : α → List Token) : Prop where
  ok : ∀ w a, F.Derives w a → Ok a
  derives : ∀ a, Ok a → F.Derives (print a) a

theorem Derives.bind {F : Form α} {G : α → Form β} {u v : List Token} {a : α} {b : β}
    (ha : F.Derives u a) (hb : (G a).Derives v b) : (F >>= G).Derives (u ++ v) b :=
  derives_bind.2 ⟨u, v, a, rfl, ha, hb⟩

theorem derives_nil_pure (a : α) : (pure a : Form α).Derives [] a :=
  derives_pure.2 ⟨rfl, rfl⟩

section Prints

variable {F : Form α} {Ok : α → Prop} {print : α → List Token}

theorem Prints.congr {Ok' : α → Prop} (h : ∀ a, Ok a ↔ Ok' a) (hF : F.Prints Ok print) :
    F.Prints Ok' print :=
  ⟨fun w a ha => (h a).1 (hF.ok w a ha), fun a ha => hF.derives a ((h a).2 ha)⟩

theorem Prints.opt (hF : F.Prints Ok print) :
    F.opt.Prints (fun x => ∀ a ∈ x, Ok a) (Printer.optional print) where
  ok := by
    intro w x h a ha
    obtain rfl := ha
    rcases derives_opt.1 h with ⟨-, h⟩ | ⟨b, h, hb⟩
    · cases h
    · cases h
      exact hF.ok w a hb
  derives := by
    intro x h
    cases x with
    | none => exact derives_opt.2 (.inl ⟨rfl, rfl⟩)
    | some a => exact derives_opt.2 (.inr ⟨a, rfl, hF.derives a (h a rfl)⟩)

/-- An empty part counts as missing, so it is none of the meanings. -/
theorem Prints.optUnless {isEmpty : α → Bool} (hF : F.Prints Ok print) :
    (F.optUnless isEmpty).Prints (fun x => ∀ a ∈ x, Ok a ∧ isEmpty a = false)
      (Printer.optional print) where
  ok := by
    intro w x h a ha
    obtain ⟨found, hfound, rfl⟩ := derives_map.1 h
    obtain ⟨hsome, hempty⟩ := Option.filter_eq_some_iff.1 ha
    exact ⟨hF.opt.ok w found hfound a hsome, by simpa using hempty⟩
  derives := by
    intro x h
    refine derives_map.2 ⟨x, hF.opt.derives x fun a ha => (h a ha).1, ?_⟩
    cases x with
    | none => rfl
    | some a => rw [Option.filter_some_pos (by simp [(h a rfl).2])]

theorem Prints.many (hF : F.Prints Ok print) :
    F.many.Prints (fun as => ∀ a ∈ as, Ok a) (List.flatMap print) where
  ok := by
    intro w as h
    induction as generalizing w with
    | nil => simp
    | cons a as ih =>
      obtain ⟨u, v, rfl, ha, has⟩ := derives_many_cons.1 h
      exact List.forall_mem_cons.2 ⟨hF.ok u a ha, ih v has⟩
  derives := by
    intro as h
    induction as with
    | nil => exact derives_many_nil.2 rfl
    | cons a as ih =>
      obtain ⟨ha, has⟩ := List.forall_mem_cons.1 h
      exact derives_many_cons.2 ⟨_, _, rfl, hF.derives a ha, ih has⟩

end Prints

/-! ### Tokens -/

theorem derives_keyword (k : Keyword) (q : Position) (d : Nat) :
    (keyword k d).Derives [⟨.keyword k, q, d⟩] q :=
  derives_token.2 ⟨_, rfl, rfl, rfl, rfl⟩

theorem derives_value (text : String) (q : Position) (d : Nat) :
    value.Derives [⟨.value text, q, d⟩] (text, q) :=
  derives_token.2 ⟨_, rfl, rfl, rfl⟩

theorem derives_values (texts : List String) (q : Position) (d : Nat) :
    value.many.Derives (texts.map fun text => ⟨.value text, q, d⟩) (texts.map (·, q)) := by
  induction texts with
  | nil => exact derives_many_nil.2 rfl
  | cons text texts ih => exact derives_many_cons.2 ⟨_, _, rfl, derives_value text q d, ih⟩

theorem prints_object (d : Nat) : object.Prints (fun _ => True) fun x => [Printer.param d x] :=
  ⟨fun _ _ _ => trivial, fun _ _ => derives_token.2 ⟨_, rfl, rfl, rfl⟩⟩

theorem derives_objects (d : Nat) (xs : List Param) :
    object.many.Derives (xs.map (Printer.param d)) xs := by
  rw [List.map_eq_flatMap]
  exact (prints_object d).many.derives xs fun _ _ => trivial

/-! ### Clauses -/

variable (p : Position)

theorem prints_markers :
    ((markers d).optUnless (·.names.isEmpty)).Prints (fun x => ∀ m ∈ x, m.names ≠ [])
      (Printer.optional (Printer.markers p d)) := by
  have hmarkers : (markers d).Prints (fun _ => True) (Printer.markers p d) := by
    refine ⟨fun _ _ _ => trivial, fun m _ => ?_⟩
    refine (derives_keyword .markers m.position d).bind
      (derives_map.2 ⟨_, derives_values m.names p d, ?_⟩)
    simp [Function.comp_def]
  exact hmarkers.optUnless.congr fun x => by simp

theorem prints_skipEnv : (skipEnv d).opt.Prints (fun _ => True)
    (Printer.optional (Printer.skipEnv p d)) := by
  have hskipEnv : (skipEnv d).Prints (fun _ => True) (Printer.skipEnv p d) :=
    ⟨fun _ _ _ => trivial, fun s _ => (derives_keyword .skipEnv s.position d).bind
      (derives_map.2 ⟨_, derives_value s.env p d, rfl⟩)⟩
  exact hskipEnv.opt.congr fun x => by simp

theorem prints_skip : (skip d).opt.Prints (fun _ => True)
    (Printer.optional (Printer.skip p d)) := by
  have hskip : (skip d).Prints (fun _ => True) (Printer.skip p d) := by
    refine ⟨fun _ _ _ => trivial, fun s _ => ?_⟩
    refine (derives_keyword .skip s.position d).bind
      (derives_map.2 ⟨_, derives_values s.reason.toList p d, ?_⟩)
    obtain ⟨reason, q⟩ := s
    cases reason <;> rfl
  exact hskip.opt.congr fun x => by simp

theorem prints_flaky : (flaky d).opt.Prints (fun x => ∀ f ∈ x, f.retries < Nat.pow 2 32)
    (Printer.optional (Printer.flaky p d)) := by
  refine Prints.opt ⟨fun w f h => ?_, fun f h => ?_⟩
  · obtain ⟨_, _, q, rfl, -, h⟩ := derives_bind.1 h
    obtain ⟨n, hn, rfl⟩ := derives_map.1 h
    obtain ⟨t, rfl, text, -, hcount⟩ := derives_token.1 hn
    obtain ⟨sign, digits, -, -, -, -, -, hlt⟩ := hcount
    exact hlt
  · refine (derives_keyword .flaky f.position d).bind (derives_map.2 ⟨f.retries, ?_, rfl⟩)
    exact derives_token.2 ⟨_, rfl, _, rfl, isRetryCount_toString h⟩

theorem prints_parameterize : (parameterize d).opt.Prints (fun _ => True)
    (Printer.optional (Printer.parameterize d)) := by
  have hmode : ∀ x : Parameterize, (repeatMode d).Derives
      [⟨.keyword (Printer.modeKeyword x.mode), x.position, d⟩] (x.mode, x.position) := by
    intro x
    refine derives_token.2 ⟨_, rfl, ?_, rfl, rfl⟩
    cases x.mode
    · exact .inl ⟨rfl, rfl⟩
    · exact .inr ⟨rfl, rfl⟩
  have hparameterize : (parameterize d).Prints (fun _ => True) (Printer.parameterize d) :=
    ⟨fun _ _ _ => trivial, fun x _ => (hmode x).bind
      (derives_map.2 ⟨x.payload, (prints_object d).derives x.payload trivial, rfl⟩)⟩
  exact hparameterize.opt.congr fun x => by simp

theorem prints_use : (use d).opt.Prints (fun _ => True)
    (Printer.optional (Printer.use p d)) := by
  have huse : (use d).Prints (fun _ => True) (Printer.use p d) :=
    ⟨fun _ _ _ => trivial, fun u _ => (derives_keyword .use u.position d).bind
      (derives_map.2 ⟨_, derives_value u.call p d, rfl⟩)⟩
  exact huse.opt.congr fun x => by simp

theorem prints_params (k : Keyword) : (params k d).opt.Prints (fun x => ∀ xs ∈ x, xs ≠ [])
    (Printer.optional (Printer.params p k d)) := by
  refine Prints.opt ⟨fun w xs h => ?_, fun xs h => ?_⟩
  · obtain ⟨_, _, q, rfl, -, h⟩ := derives_bind.1 h
    obtain ⟨_, _, first, rfl, -, h⟩ := derives_bind.1 h
    obtain ⟨others, -, rfl⟩ := derives_map.1 h
    exact List.cons_ne_nil first others
  · obtain ⟨first, others, rfl⟩ := List.exists_cons_of_ne_nil h
    exact (derives_keyword k p d).bind (((prints_object d).derives first trivial).bind
      (derives_map.2 ⟨others, derives_objects d others, rfl⟩))

/-! ### Steps -/

theorem prints_hooks {step : Nat → Form σ} {StepOk : σ → Prop} {print : Nat → σ → List Token}
    (k : Keyword) (hstep : (step (d + 1)).Prints StepOk (print (d + 1))) :
    ((hooks step k d).optUnless (·.steps.isEmpty)).Prints
      (fun x => ∀ h ∈ x, h.IsWellFormed StepOk) (Printer.optional (Printer.hooks print k d)) := by
  have hhooks : (hooks step k d).Prints (fun h => ∀ s ∈ h.steps, StepOk s)
      (Printer.hooks print k d) := by
    refine ⟨fun w h hw => ?_, fun h hall => ?_⟩
    · obtain ⟨_, _, q, rfl, -, hw⟩ := derives_bind.1 hw
      obtain ⟨steps, hsteps, rfl⟩ := derives_map.1 hw
      exact hstep.many.ok _ steps hsteps
    · exact (derives_keyword k h.position d).bind
        (derives_map.2 ⟨h.steps, hstep.many.derives h.steps hall, rfl⟩)
  refine hhooks.optUnless.congr fun x => forall₂_congr fun h _ => ?_
  rw [List.isEmpty_eq_false_iff]
  exact ⟨fun ⟨hall, hne⟩ => ⟨hne, hall⟩, fun ⟨hne, hall⟩ => ⟨hall, hne⟩⟩

theorem prints_step {hooks : Nat → Form η} {HooksOk : η → Prop} {print : Nat → η → List Token}
    (hhooks : (hooks (d + 1)).Prints HooksOk (print (d + 1))) :
    (step hooks d).Prints (Step.IsWellFormed HooksOk) (Printer.step p print d) where
  ok := by
    intro w s h
    unfold step at h
    obtain ⟨_, _, name, rfl, -, h⟩ := derives_bind.1 h
    obtain ⟨_, _, skipEnv, rfl, -, h⟩ := derives_bind.1 h
    obtain ⟨_, _, skip, rfl, -, h⟩ := derives_bind.1 h
    obtain ⟨_, _, markers, rfl, hmarkers, h⟩ := derives_bind.1 h
    obtain ⟨_, _, flaky, rfl, hflaky, h⟩ := derives_bind.1 h
    obtain ⟨_, _, parameterize, rfl, -, h⟩ := derives_bind.1 h
    obtain ⟨_, _, own, rfl, hown, h⟩ := derives_bind.1 h
    obtain ⟨_, _, uses, rfl, -, h⟩ := derives_bind.1 h
    obtain ⟨_, _, input, rfl, hinput, h⟩ := derives_bind.1 h
    obtain ⟨output, houtput, rfl⟩ := derives_map.1 h
    exact ⟨(prints_markers p).ok _ _ hmarkers, (prints_flaky p).ok _ _ hflaky,
      hhooks.ok _ _ hown, (prints_params p .input).ok _ _ hinput,
      (prints_params p .output).ok _ _ houtput⟩
  derives := by
    intro s h
    have hname : (identifier d).Derives [⟨.identifier s.id, s.position, d⟩] (s.id, s.position) :=
      derives_token.2 ⟨_, rfl, rfl, rfl, rfl⟩
    exact hname.bind <|
      ((prints_skipEnv p).derives s.skipEnv trivial).bind <|
      ((prints_skip p).derives s.skip trivial).bind <|
      ((prints_markers p).derives s.markers h.markers).bind <|
      ((prints_flaky p).derives s.flaky h.flaky).bind <|
      (prints_parameterize.derives s.parameterize trivial).bind <|
      (hhooks.derives s.hooks h.hooks).bind <|
      ((prints_use p).derives s.uses trivial).bind <|
      ((prints_params p .input).derives s.input h.input).bind <|
      ((prints_params p .output).derives s.output h.output).bind <| derives_nil_pure _

theorem prints_hookStep (d : Nat) :
    (hookStep d).Prints HookStep.IsWellFormed (Printer.hookStep p d) :=
  @prints_step Unit d p (fun _ => pure ()) (fun _ => True) (fun _ _ => [])
    ⟨fun _ _ _ => trivial, fun a _ => derives_nil_pure a⟩

theorem prints_ownHooks :
    (ownHooks d).Prints OwnHooks.IsWellFormed (Printer.ownHooks p d) where
  ok := by
    intro w own h
    obtain ⟨_, _, before, rfl, hbefore, h⟩ := derives_bind.1 h
    obtain ⟨after, hafter, rfl⟩ := derives_map.1 h
    exact ⟨(prints_hooks .before (prints_hookStep p (d + 1))).ok _ _ hbefore,
      (prints_hooks .after (prints_hookStep p (d + 1))).ok _ _ hafter⟩
  derives := by
    intro own h
    exact ((prints_hooks .before (prints_hookStep p (d + 1))).derives own.before h.before).bind <|
      ((prints_hooks .after (prints_hookStep p (d + 1))).derives own.after h.after).bind <|
      derives_nil_pure _

theorem prints_mainStep (d : Nat) :
    (mainStep d).Prints MainStep.IsWellFormed (Printer.mainStep p d) :=
  prints_step p (prints_ownHooks p)

/-- The meanings of the form of scripts are the well-formed scripts, and a script is derived from
its own tokens. -/
theorem prints_script : script.Prints IsWellFormed (Printer.script p) where
  ok := by
    intro w s h
    unfold script at h
    obtain ⟨_, _, position, rfl, -, h⟩ := derives_bind.1 h
    obtain ⟨_, _, issue, rfl, -, h⟩ := derives_bind.1 h
    obtain ⟨_, _, markers, rfl, hmarkers, h⟩ := derives_bind.1 h
    obtain ⟨_, _, before, rfl, hbefore, h⟩ := derives_bind.1 h
    obtain ⟨_, _, after, rfl, hafter, h⟩ := derives_bind.1 h
    obtain ⟨_, _, q, rfl, -, h⟩ := derives_bind.1 h
    obtain ⟨_, _, first, rfl, hfirst, h⟩ := derives_bind.1 h
    obtain ⟨others, hothers, rfl⟩ := derives_map.1 h
    exact ⟨(prints_markers p).ok _ _ hmarkers,
      (prints_hooks .before (prints_mainStep p 1)).ok _ _ hbefore,
      (prints_hooks .after (prints_mainStep p 1)).ok _ _ hafter, List.cons_ne_nil first others,
      List.forall_mem_cons.2 ⟨(prints_mainStep p 1).ok _ _ hfirst,
        (prints_mainStep p 1).many.ok _ _ hothers⟩⟩
  derives := by
    intro s h
    obtain ⟨issue, markers, before, after, steps, position⟩ := s
    obtain ⟨first, others, rfl⟩ := List.exists_cons_of_ne_nil h.ne_nil
    obtain ⟨hfirst, hothers⟩ := List.forall_mem_cons.1 h.steps
    refine (derives_keyword .issue position 0).bind <|
      (derives_value issue.id issue.position 0).bind <|
      ((prints_markers p).derives markers h.markers).bind <|
      ((prints_hooks .before (prints_mainStep p 1)).derives before h.before).bind <|
      ((prints_hooks .after (prints_mainStep p 1)).derives after h.after).bind <|
      (derives_keyword .steps p 0).bind ?_
    rw [List.flatten_cons, List.flatMap_cons, List.append_assoc]
    exact ((prints_mainStep p 1).derives first hfirst).bind <|
      ((prints_mainStep p 1).many.derives others hothers).bind <| derives_nil_pure _

end Form

/-- **Reading undoes printing.** The scripts that are read from any tokens at all are the
well-formed ones, and each of them is read from its own tokens. -/
theorem read_iff_isWellFormed (s : Script) :
    ((∃ ts, ofTokens ts = .ok s) ↔ s.IsWellFormed) ∧
      ∀ p, ofTokens (Printer.script p s) = .ok s ↔ s.IsWellFormed := by
  have hread : ∀ ts, ofTokens ts = .ok s → s.IsWellFormed := fun ts h =>
    (Form.prints_script {}).ok ts s (ofTokens_eq_ok.1 h)
  have hprint : ∀ p, s.IsWellFormed → ofTokens (Printer.script p s) = .ok s := fun p h =>
    ofTokens_eq_ok.2 ((Form.prints_script p).derives s h)
  exact ⟨⟨fun ⟨ts, h⟩ => hread ts h, fun h => ⟨_, hprint {} h⟩⟩,
    fun p => ⟨hread _, hprint p⟩⟩

/-- Markers without names are not well-formed: they are read as if they were missing. -/
example :
    let s : Script :=
      { issue := ⟨"T-1", ⟨0, 7⟩⟩, markers := some ⟨[], ⟨1, 0⟩⟩, before := none, after := none
        steps := [⟨"login", none, some ⟨some "not yet", ⟨4, 4⟩⟩, none, some ⟨12, ⟨5, 4⟩⟩, none,
          ⟨none, none⟩, none, none, none, ⟨3, 2⟩⟩]
        position := ⟨0, 0⟩ }
    ofTokens (Printer.script {} s) = .ok { s with markers := none } := by
  rfl

end Script
end TestScript
