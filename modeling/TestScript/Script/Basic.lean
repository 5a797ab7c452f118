import TestScript.Position
import TestScript.Payload

/-!
# Scripts

A script describes the test of one issue: what marks it, the steps to take, and the steps to
take before and after them. A step may have steps before and after it, too, but those have none
of their own: a `Step` is the same for both, up to what it holds in the place of its hooks.
-/

namespace TestScript

/-- The issue that a script tests. -/
structure Issue where
  id : String
  position : Position
  deriving DecidableEq, Repr

/-- The names that mark a script or a step. -/
structure Markers where
  names : List String
  position : Position
  deriving DecidableEq, Repr

/-- A section of steps to take before or after others. -/
structure Hooks (σ : Type) where
  steps : List σ
  position : Position
  deriving DecidableEq, Repr

/-- A step is skipped in an environment. -/
structure SkipEnv where
  env : String
  position : Position
  deriving DecidableEq, Repr

/-- A step is skipped, perhaps for a stated reason. -/
structure Skip where
  reason : Option String
  position : Position
  deriving DecidableEq, Repr

/-- A step is tried again, at most so often. -/
structure Flaky where
  retries : Nat
  position : Position
  deriving DecidableEq, Repr

/-- A payload and where it stands. -/
structure Param where
  object : Payload
  position : Position
  deriving Repr

/-- How a step is repeated for the members of a payload. -/
inductive RepeatMode where
  | parameterize
  | foreach
  deriving DecidableEq, Repr

/-- A step is taken once for each member of a payload. -/
structure Parameterize where
  mode : RepeatMode
  payload : Param
  position : Position
  deriving Repr

/-- What a step calls. -/
structure Use where
  call : String
  position : Position
  deriving DecidableEq, Repr

/-- A step; `η` is what it holds in the place of its hooks. -/
structure Step (η : Type) where
  id : String
  skipEnv : Option SkipEnv
  skip : Option Skip
  markers : Option Markers
  flaky : Option Flaky
  parameterize : Option Parameterize
  hooks : η
  uses : Option Use
  input : Option (List Param)
  output : Option (List Param)
  position : Position
  deriving Repr

/-- A step without hooks of its own. -/
abbrev HookStep := Step Unit

/-- The steps to take before and after a step. -/
structure OwnHooks where
  before : Option (Hooks HookStep)
  after : Option (Hooks HookStep)
  deriving Repr

/-- A step that may have hooks of its own. -/
abbrev MainStep := Step OwnHooks

/-- A script. -/
structure Script where
  issue : Issue
  markers : Option Markers
  before : Option (Hooks MainStep)
  after : Option (Hooks MainStep)
  steps : List MainStep
  position : Position
  deriving Repr

/-- The steps of a section; none if it is missing. -/
def Hooks.stepsOf {σ : Type} (hooks : Option (Hooks σ)) : List σ :=
  (hooks.map Hooks.steps).getD []

namespace Step

/-- Whether a step is skipped. -/
def isSkipped {η : Type} (s : Step η) : Bool :=
  s.skip.isSome

/-- A step without its hooks. -/
def bare {η : Type} (s : Step η) : HookStep :=
  { s with hooks := () }

/-- A step with its hooks around it, in the order in which they are taken. -/
def block (s : MainStep) : List HookStep :=
  Hooks.stepsOf s.hooks.before ++ s.bare :: Hooks.stepsOf s.hooks.after

end Step

namespace Script

/-- The first of the main steps with an id. -/
def step? (s : Script) (id : String) : Option MainStep :=
  s.steps.find? (·.id == id)

/-- All steps of a script, in the order in which they are taken. -/
def allSteps (s : Script) : List HookStep :=
  (Hooks.stepsOf s.before ++ s.steps ++ Hooks.stepsOf s.after).flatMap Step.block

end Script
end TestScript
