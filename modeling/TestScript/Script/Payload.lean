import TestScript.Script.Basic
import TestScript.Script.Token

/-!
# Scripts and tokens as structured values

The form in which scripts and tokens are written out. A missing part is left out, but a step
that is skipped always shows its reason, null if there is none.
-/

namespace TestScript

namespace Payload

/-- A place. -/
def ofPosition (p : Position) : Payload :=
  .object [("line", .int p.line), ("column", .int p.column)]

/-- The member of a part that may be missing. -/
def optional {α : Type} (key : String) (f : α → Payload) (part : Option α) :
    List (String × Payload) :=
  match part with
  | some a => [(key, f a)]
  | none => []

end Payload

open Payload (ofPosition optional)

/-- A part that holds one value under a key. -/
def Payload.part (key : String) (value : Payload) (p : Position) : Payload :=
  .object [(key, value), ("position", ofPosition p)]

def Issue.toPayload (i : Issue) : Payload :=
  .part "id" (.text i.id) i.position

def Markers.toPayload (m : Markers) : Payload :=
  .part "names" (.list (m.names.map .text)) m.position

def Hooks.toPayload {σ : Type} (step : σ → Payload) (h : Hooks σ) : Payload :=
  .part "steps" (.list (h.steps.map step)) h.position

def SkipEnv.toPayload (s : SkipEnv) : Payload :=
  .part "env" (.text s.env) s.position

def Skip.toPayload (s : Skip) : Payload :=
  .part "reason" ((s.reason.map .text).getD .null) s.position

def Flaky.toPayload (f : Flaky) : Payload :=
  .part "retries" (.int f.retries) f.position

def Param.toPayload (p : Param) : Payload :=
  .part "object" p.object p.position

/-- How a mode is called. -/
def RepeatMode.text : RepeatMode → String
  | .parameterize => "parameterize"
  | .foreach => "foreach"

def Parameterize.toPayload (p : Parameterize) : Payload :=
  .object [("mode", .text p.mode.text), ("payload", p.payload.toPayload),
    ("position", ofPosition p.position)]

def Use.toPayload (u : Use) : Payload :=
  .part "call" (.text u.call) u.position

/-- The payloads of a step. -/
def Param.listPayload (ps : List Param) : Payload :=
  .list (ps.map Param.toPayload)

/-- A step; `hooks` gives the members for its hooks. -/
def Step.toPayload {η : Type} (hooks : η → List (String × Payload)) (s : Step η) : Payload :=
  .object <|
    [("id", .text s.id)] ++
    optional "skip_env" SkipEnv.toPayload s.skipEnv ++
    optional "skip" Skip.toPayload s.skip ++
    optional "markers" Markers.toPayload s.markers ++
    optional "flaky" Flaky.toPayload s.flaky ++
    optional "parameterize" Parameterize.toPayload s.parameterize ++
    hooks s.hooks ++
    optional "use" Use.toPayload s.uses ++
    optional "input" Param.listPayload s.input ++
    optional "output" Param.listPayload s.output ++
    [("position", ofPosition s.position)]

def HookStep.toPayload (s : HookStep) : Payload :=
  Step.toPayload (fun _ => []) s

def OwnHooks.members (h : OwnHooks) : List (String × Payload) :=
  optional "before" (Hooks.toPayload HookStep.toPayload) h.before ++
    optional "after" (Hooks.toPayload HookStep.toPayload) h.after

def MainStep.toPayload (s : MainStep) : Payload :=
  Step.toPayload OwnHooks.members s

/-- A script. -/
def Script.toPayload (s : Script) : Payload :=
  .object <|
    [("issue", s.issue.toPayload)] ++
    optional "markers" Markers.toPayload s.markers ++
    optional "before" (Hooks.toPayload MainStep.toPayload) s.before ++
    optional "after" (Hooks.toPayload MainStep.toPayload) s.after ++
    [("steps", .list (s.steps.map MainStep.toPayload)), ("position", ofPosition s.position)]

namespace Script.Token

/-- What a token is, by type and content. -/
def Kind.toPayload (k : Kind) : Payload :=
  let tagged (type : String) (value : Payload) : Payload :=
    .object [("type", .text type), ("value", value)]
  match k with
  | .keyword k => tagged "keyword" (.text k.text)
  | .identifier text => tagged "identifier" (.text text)
  | .value text => tagged "value" (.text text)
  | .object payload => tagged "object" payload

/-- A token. -/
def toPayload (t : Token) : Payload :=
  .object [("kind", t.kind.toPayload), ("position", ofPosition t.position),
    ("depth", .int t.depth)]

end Script.Token
end TestScript
