import Mathlib.Data.List.Forall2
import TestScript.Script.Grammar

/-!
# Scripts that are alike

Two lists of tokens are alike if they differ in places and payloads only, and two scripts are alike
if all that they say is the same but for those. A `Likeness` tells how a place and a payload of the
one may differ from that of the other: not at all, by a shift, in any way.
-/

namespace TestScript

/-- How the places of keys, those of values, and payloads with their places may differ. -/
structure Likeness where
  key : Position → Position → Prop
  value : Position → Position → Prop
  object : Param → Param → Prop

/-! ## Outcomes -/

/-- Two computations fail alike or succeed alike. If `free`, then it does not matter what the one
comes to where the other fails. -/
inductive Matched {ε α : Type} (free : Prop) (E : ε → ε → Prop) (A : α → α → Prop) :
    Except ε α → Except ε α → Prop
  | ok {a a' : α} (h : A a a') : Matched free E A (.ok a) (.ok a')
  | error {e e' : ε} (h : E e e') : Matched free E A (.error e) (.error e')
  | left {e : ε} {y : Except ε α} (h : free) : Matched free E A (.error e) y
  | right {x : Except ε α} {e : ε} (h : free) : Matched free E A x (.error e)

namespace Matched

variable {ε α β : Type} {free : Prop} {E E' : ε → ε → Prop} {A A' : α → α → Prop}
  {B : β → β → Prop} {x y : Except ε α}

theorem bind {f f' : α → Except ε β} (h : Matched free E A x y)
    (hf : ∀ a a', A a a' → Matched free E B (f a) (f' a')) :
    Matched free E B (x >>= f) (y >>= f') := by
  cases h with
  | ok h => exact hf _ _ h
  | error h => exact .error h
  | left h => exact .left h
  | right h => exact .right h

theorem map {f f' : α → β} (h : Matched free E A x y) (hf : ∀ a a', A a a' → B (f a) (f' a')) :
    Matched free E B (x.map f) (y.map f') := by
  cases h with
  | ok h => exact .ok (hf _ _ h)
  | error h => exact .error h
  | left h => exact .left h
  | right h => exact .right h

/-- What two computations come to may be used of their results. -/
theorem mono_of_eq (h : Matched free E A x y)
    (hE : ∀ e e', x = .error e → y = .error e' → E e e' → E' e e')
    (hA : ∀ a a', x = .ok a → y = .ok a' → A a a' → A' a a') : Matched free E' A' x y := by
  cases h with
  | ok h => exact .ok (hA _ _ rfl rfl h)
  | error h => exact .error (hE _ _ rfl rfl h)
  | left h => exact .left h
  | right h => exact .right h

theorem mono (h : Matched free E A x y) (hE : ∀ e e', E e e' → E' e e')
    (hA : ∀ a a', A a a' → A' a a') : Matched free E' A' x y :=
  h.mono_of_eq (fun e e' _ _ => hE e e') fun a a' _ _ => hA a a'

theorem refl (hE : ∀ e, E e e) (hA : ∀ a, A a a) (x : Except ε α) : Matched free E A x x := by
  cases x with
  | ok a => exact .ok (hA a)
  | error e => exact .error (hE e)

/-- Computations that may fail as they like need only succeed alike. -/
theorem of_free (h : free) (hA : ∀ a a', x = .ok a → y = .ok a' → A a a') :
    Matched free E A x y := by
  cases x with
  | error e => exact .left h
  | ok a =>
    cases y with
    | error e => exact .right h
    | ok a' => exact .ok (hA a a' rfl rfl)

theorem of_ok {a a' : α} (h : Matched free E A (.ok a) (.ok a')) : A a a' := by
  cases h with
  | ok h => exact h

end Matched

namespace Likeness

variable (L : Likeness)

/-- Two parts of a script say the same, and their places may differ in one way. -/
def SameAt {α β : Type} (P : Position → Position → Prop) (content : α → β) (place : α → Position)
    (a a' : α) : Prop :=
  content a = content a' ∧ P (place a) (place a')

/-- Only places differ, all of them in one way. -/
def ofPlaces (P : Position → Position → Prop) : Likeness :=
  ⟨P, P, SameAt P Param.object Param.position⟩

/-! ## Scripts -/

def MarkersLike : Markers → Markers → Prop :=
  SameAt L.key Markers.names Markers.position

def SkipEnvLike : SkipEnv → SkipEnv → Prop :=
  SameAt L.key SkipEnv.env SkipEnv.position

def SkipLike : Skip → Skip → Prop :=
  SameAt L.key Skip.reason Skip.position

def FlakyLike : Flaky → Flaky → Prop :=
  SameAt L.key Flaky.retries Flaky.position

def UseLike : Use → Use → Prop :=
  SameAt L.key Use.call Use.position

structure ParameterizeLike (a a' : Parameterize) : Prop where
  mode_eq : a.mode = a'.mode
  payload : L.object a.payload a'.payload
  position : L.key a.position a'.position

structure HooksLike {σ : Type} (step : σ → σ → Prop) (a a' : Hooks σ) : Prop where
  steps : List.Forall₂ step a.steps a'.steps
  position : L.key a.position a'.position

/-- Two steps are alike if their hooks are alike in the sense of `hooks`. -/
structure StepLike {η : Type} (hooks : η → η → Prop) (s s' : Step η) : Prop where
  id_eq : s.id = s'.id
  skipEnv : Option.Rel L.SkipEnvLike s.skipEnv s'.skipEnv
  skip : Option.Rel L.SkipLike s.skip s'.skip
  markers : Option.Rel L.MarkersLike s.markers s'.markers
  flaky : Option.Rel L.FlakyLike s.flaky s'.flaky
  parameterize : Option.Rel L.ParameterizeLike s.parameterize s'.parameterize
  hooks : hooks s.hooks s'.hooks
  uses : Option.Rel L.UseLike s.uses s'.uses
  input : Option.Rel (List.Forall₂ L.object) s.input s'.input
  output : Option.Rel (List.Forall₂ L.object) s.output s'.output
  position : L.key s.position s'.position

def HookStepLike : HookStep → HookStep → Prop :=
  L.StepLike fun _ _ => True

structure OwnHooksLike (a a' : OwnHooks) : Prop where
  before : Option.Rel (L.HooksLike L.HookStepLike) a.before a'.before
  after : Option.Rel (L.HooksLike L.HookStepLike) a.after a'.after

def MainStepLike : MainStep → MainStep → Prop :=
  L.StepLike L.OwnHooksLike

/-- Two scripts are alike. The place of an issue is that of its value. -/
structure ScriptLike (s s' : Script) : Prop where
  issue : SameAt L.value Issue.id Issue.position s.issue s'.issue
  markers : Option.Rel L.MarkersLike s.markers s'.markers
  before : Option.Rel (L.HooksLike L.MainStepLike) s.before s'.before
  after : Option.Rel (L.HooksLike L.MainStepLike) s.after s'.after
  steps : List.Forall₂ L.MainStepLike s.steps s'.steps
  position : L.key s.position s'.position

/-! ## Tokens -/

/-- Two tokens are alike. -/
inductive TokenLike : Script.Token → Script.Token → Prop
  | keyword (k : Script.Keyword) {p p' : Position} (d : Nat) (h : L.key p p') :
    TokenLike ⟨.keyword k, p, d⟩ ⟨.keyword k, p', d⟩
  | identifier (text : String) {p p' : Position} (d : Nat) (h : L.key p p') :
    TokenLike ⟨.identifier text, p, d⟩ ⟨.identifier text, p', d⟩
  | value (text : String) {p p' : Position} (d : Nat) (h : L.value p p') :
    TokenLike ⟨.value text, p, d⟩ ⟨.value text, p', d⟩
  | object {a a' : Payload} {p p' : Position} (d : Nat) (h : L.object ⟨a, p⟩ ⟨a', p'⟩) :
    TokenLike ⟨.object a, p, d⟩ ⟨.object a', p', d⟩

/-- Two lists of tokens are alike, token by token. -/
def TokensLike : List Script.Token → List Script.Token → Prop :=
  List.Forall₂ L.TokenLike

variable {L}

theorem TokenLike.describe_eq {t t' : Script.Token} (h : L.TokenLike t t') :
    t.kind.describe = t'.kind.describe := by
  cases h <;> rfl

end Likeness
end TestScript
