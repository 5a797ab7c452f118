import TestScript.Proofs.Command.Checking

/-!
# The commands agree about a file

Each of the three commands can be asked about one file. A check reads the file by itself and names
it in the error, the others are handed its text. All the same they come to one verdict, and where
they report an error it is the same report, character for character (`agree_of_asksFor`). Only an
error of the grammar is not seen by the command that stops at the tokens.
-/

namespace TestScript.Command

variable {files : FileTree} {dir path text : String} {colors : Bool} {unit : Nat}
  {args : List String} {settings : Settings} {task : Task}

/-! ## The outcome of a command -/

/-- The arguments ask for a task, to be done under some settings, which are valid. -/
def AsksFor (files : FileTree) (dir : String) (args : List String) (settings : Settings)
    (task : Task) : Prop :=
  ∃ o loaded, Arguments.parse args = .run o task ∧ Settings.load files dir = .ok loaded ∧
    loaded.override o.indent o.noColor o.verbose = settings ∧ settings.indentUnit ≠ 0

theorem run_of_asksFor (h : AsksFor files dir args settings task) :
    run files dir colors args =
      perform files settings.indentUnit (colors && settings.colored) task := by
  obtain ⟨o, loaded, hargs, hload, rfl, hunit⟩ := h
  rw [run, hargs]
  dsimp only
  rw [runTask, hload]
  exact if_neg hunit

/-- The line in which a check of one file says that it fails. -/
def summary (colors : Bool) : String :=
  line (Paint.boldRed.apply colors "1 of 1 scripts failed")

/-- A check of one file that is no directory passes on the verdict on it. -/
theorem check_singleton (h : files.isDirectory path = false) :
    check files unit colors [path] =
      match verdict files unit colors path with
      | .ok passed => ⟨0, passed, ""⟩
      | .error report => ⟨1, "", report ++ summary colors⟩ := by
  have hfiles : [path].flatMap (expand files) = [path] := by
    rw [List.flatMap_singleton, expand, if_neg (by simp [h])]
  rw [check, hfiles]
  cases hverdict : verdict files unit colors path with
  | ok passed =>
    have hout : collect Command.passed [.ok passed] = passed := by
      simp [collect, Command.passed, String.join]
    have herr : collect failed [.ok passed] = "" := rfl
    simp [hverdict, failed, hout, herr]
  | error report =>
    have hout : collect passed [.error report] = "" := rfl
    have herr : collect failed [.error report] = report := by
      simp [collect, failed, String.join]
    have hcount : Nat.repr 1 ++ " of " ++ Nat.repr 1 ++ " scripts failed" =
        "1 of 1 scripts failed" := by decide +kernel
    simp [hverdict, failed, hout, herr, summary, hcount]

/-! ## One file, three commands -/

/-- The verdict on a file that can be read is that on its text. -/
theorem verdict_of_read (h : files.read path = .ok text) :
    verdict files unit colors path =
      match compile unit text with
      | .ok _ => .ok (line (Paint.boldGreen.apply colors "ok" ++ " " ++ path))
      | .error d => .error (report colors (d.withPath path) (some text)) := by
  rw [verdict, compileFile, h]
  dsimp only
  cases compile unit text <;> rfl

theorem verdict_of_not_read {fault : ReadFault} (h : files.read path = .error fault) :
    verdict files unit colors path =
      .error (report colors ((Diagnostic.ofRead fault).withPath path) none) := by
  rw [verdict, compileFile, h]
  rfl

theorem dump_of_read {α : Type} (h : files.read path = .ok text)
    (stage : String → Except Diagnostic α) (toPayload : α → Payload) :
    dump files colors path stage toPayload =
      match stage text with
      | .ok a => ⟨0, line (toPayload a).pretty, ""⟩
      | .error d => ⟨1, "", report colors (d.withPath path) (some text)⟩ := by
  cases hstage : stage text <;> simp [dump, h, hstage]

theorem dump_of_not_read {α : Type} {fault : ReadFault} (h : files.read path = .error fault)
    (stage : String → Except Diagnostic α) (toPayload : α → Payload) :
    dump files colors path stage toPayload =
      failure ("Failed to read script " ++ path) (some fault.message) := by
  rw [dump, h]

/-- A text that has no tokens has no script either, for the same reason. An error of the grammar
is found only in a text that has tokens. -/
theorem compile_cases (unit : Nat) (text : String) :
    (∃ d, tokenize unit text = .error d ∧ compile unit text = .error d ∧ d.stage ≠ .grammar) ∨
    (∃ ts, tokenize unit text = .ok ts ∧
      ((∃ s, compile unit text = .ok s) ∨
        ∃ d, compile unit text = .error d ∧ d.stage = .grammar)) := by
  have hstage : ∀ d, tokenize unit text = .error d → d.stage ≠ .grammar := by
    intro d h
    rw [tokenize] at h
    cases hload : Document.load text with
    | error e =>
      rw [hload] at h
      cases h
      exact nofun
    | ok root =>
      cases hlayout : Script.tokensOf unit root with
      | error e =>
        simp only [hload, hlayout, Except.mapError, bind, Except.bind] at h
        cases h
        exact nofun
      | ok ts => simp [hload, hlayout, Except.mapError, bind, Except.bind] at h
  cases htokens : tokenize unit text with
  | error d => exact .inl ⟨d, rfl, by rw [compile, htokens]; rfl, hstage d htokens⟩
  | ok ts =>
    have hcompile : compile unit text = (Script.ofTokens ts).mapError .ofGrammar := by
      rw [compile, htokens]
      rfl
    rw [hcompile]
    cases Script.ofTokens ts with
    | error e => exact .inr ⟨ts, rfl, .inr ⟨_, rfl, rfl⟩⟩
    | ok s => exact .inr ⟨ts, rfl, .inl ⟨s, rfl⟩⟩

/-- What the three commands come to for the file at a path agrees. If the file has a text and that
is no script, then the reports are those of its error. -/
structure Agree (files : FileTree) (unit : Nat) (colors : Bool) (path : String)
    (check tokens ast : Outcome) : Prop where
  check_iff_ast : check.code = 0 ↔ ast.code = 0
  tokens_of_ast : ast.code = 0 → tokens.code = 0
  reports : ∀ text, files.read path = .ok text → check.code ≠ 0 →
    ∃ d, compile unit text = .error d ∧
      ast.err = report colors (d.withPath path) (some text) ∧
      check.err = ast.err ++ summary colors ∧
      (d.stage = .load ∨ d.stage = .layout → tokens.err = ast.err) ∧
      (d.stage = .grammar → tokens.code = 0)

/-- The commands agree about every file, with a text or without. -/
theorem agree_perform (hpath : files.isDirectory path = false) :
    Agree files unit colors path (perform files unit colors (.check [path]))
      (perform files unit colors (.tokens path)) (perform files unit colors (.ast path)) := by
  simp only [perform, check_singleton hpath]
  cases hread : files.read path with
  | error fault =>
    simp only [verdict_of_not_read hread, dump_of_not_read hread]
    refine ⟨by simp [failure], by simp [failure], fun text htext => ?_⟩
    rw [hread] at htext
    cases htext
  | ok text =>
    simp only [verdict_of_read hread, dump_of_read hread]
    obtain ⟨d, htokens, hcompile, hstage⟩ | ⟨ts, htokens, ⟨s, hcompile⟩ | ⟨d, hcompile, hstage⟩⟩ :=
      compile_cases unit text
    · simp only [htokens, hcompile]
      refine ⟨by simp, by simp, fun text' htext _ => ?_⟩
      obtain rfl : text = text' := Except.ok.inj (hread.symm.trans htext)
      exact ⟨d, hcompile, rfl, rfl, fun _ => rfl, fun h => absurd h hstage⟩
    · simp only [htokens, hcompile]
      exact ⟨by simp, by simp, by simp⟩
    · simp only [htokens, hcompile]
      refine ⟨by simp, by simp, fun text' htext _ => ?_⟩
      obtain rfl : text = text' := Except.ok.inj (hread.symm.trans htext)
      exact ⟨d, hcompile, rfl, rfl, by simp [hstage], fun _ => rfl⟩

/-- **The commands agree about a file.** A check succeeds where the tree can be shown, and the
tokens can be shown wherever the tree can. What a check reports of a text, in front of its last
line, is what is reported instead of the tree, and instead of the tokens too if these cannot be
shown. -/
theorem agree_of_asksFor {argsCheck argsTokens argsAst : List String}
    (hpath : files.isDirectory path = false)
    (hcheck : AsksFor files dir argsCheck settings (.check [path]))
    (htokens : AsksFor files dir argsTokens settings (.tokens path))
    (hast : AsksFor files dir argsAst settings (.ast path)) :
    Agree files settings.indentUnit (colors && settings.colored) path
      (run files dir colors argsCheck) (run files dir colors argsTokens)
      (run files dir colors argsAst) := by
  rw [run_of_asksFor hcheck, run_of_asksFor htokens, run_of_asksFor hast]
  exact agree_perform hpath

/-- A file with steps but no issue, which only the grammar asks for. -/
def withoutIssue : FileTree :=
  ({} : FileTree).add "a.yml" (.file (some "steps:\n  open:\n"))

theorem agree_withoutIssue :
    Agree withoutIssue 4 true "a.yml" (run withoutIssue "" true ["--indent=4", "check", "a.yml"])
        (run withoutIssue "" true ["tokens", "a.yml", "--indent=4"])
        (run withoutIssue "" true ["ast", "--indent=4", "--", "a.yml"]) ∧
      (run withoutIssue "" true ["--indent=4", "check", "a.yml"]).code = 1 := by
  have hpath : withoutIssue.isDirectory "a.yml" = false := by decide +kernel
  have hasks : ∀ {args task}, Arguments.parse args = .run { indent := some 4 } task →
      AsksFor withoutIssue "" args { indentUnit := 4 } task := fun h =>
    ⟨_, {}, h, by decide +kernel, rfl, by decide⟩
  have hcheck : Arguments.parse ["--indent=4", "check", "a.yml"] =
      .run { indent := some 4 } (.check ["a.yml"]) := by decide +kernel
  have htokens : Arguments.parse ["tokens", "a.yml", "--indent=4"] =
      .run { indent := some 4 } (.tokens "a.yml") := by decide +kernel
  have hast : Arguments.parse ["ast", "--indent=4", "--", "a.yml"] =
      .run { indent := some 4 } (.ast "a.yml") := by decide +kernel
  exact ⟨@agree_of_asksFor _ _ _ true _ _ _ _ hpath (hasks hcheck) (hasks htokens) (hasks hast),
    by decide +kernel⟩

end TestScript.Command
