import TestScript.Proofs.Grammar.Acceptance

/-!
# What an error of the grammar says

A list of tokens is **viable** if a script begins with it. An error about a token stands at the
first token behind which the tokens are not viable any more, and the error at the end stands
only behind a viable list. The terminals that an error expects are exactly those of the tokens
that would have kept the list viable (`explains_of_ofTokens_eq_error`).
-/

namespace TestScript.Script

open Grammar

/-- Some tokens behind these make a script of them. -/
def IsViable (ts : List Token) : Prop :=
  ∃ more s, ofTokens (ts ++ more) = .ok s

/-- Terminals, each named once, of exactly the tokens that keep a list viable. -/
def Expects (ts : List Token) (expected : List String) : Prop :=
  expected.Nodup ∧
    ∀ x, x ∈ expected ↔ ∃ t : Token, t.kind.terminal = x ∧ IsViable (ts ++ [t])

/-- In `ts` the token `t` behind `w` is the first impossible one, and an error stands there that
does not depend on what follows. -/
structure FirstImpossible (ts w : List Token) (t : Token) (e : GrammarError) : Prop where
  eq_append : ∃ r, ts = w ++ t :: r
  viable : IsViable w
  not_viable : ¬ IsViable (w ++ [t])
  position_eq : e.position = t.position
  same_error : ∀ r, ofTokens (w ++ t :: r) = .error e

/-- An error says where and why a list of tokens is no script. -/
def GrammarError.Explains (e : GrammarError) (ts : List Token) : Prop :=
  match e.cause with
  | .unexpectedToken found expected =>
    ∃ w t, FirstImpossible ts w t e ∧ found = t.kind.describe ∧ Expects w expected
  | .invalidValue clause value reason =>
    ∃ w k t, FirstImpossible ts (w ++ [k]) t e ∧ k.kind = .keyword .flaky ∧ t.kind = .value value ∧
      clause = "flaky" ∧ reason = "retry count must be a non-negative integer"
  | .unexpectedEnd expected =>
    IsViable ts ∧ Expects ts expected ∧
      e.position = (ts.getLast?.map Token.position).getD ⟨0, 0⟩

theorem isViable_iff {ts : List Token} : IsViable ts ↔ Form.script.Viable ts := by
  simp only [IsViable, Form.Viable, Form.Spells, ofTokens_eq_ok]

theorem expects_of_notes {w : List Token} {refused : List String}
    (h : Form.script.Notes w [] refused) : Expects w refused := by
  refine ⟨h.nodup List.nodup_nil, fun x => ?_⟩
  rw [h.mem_iff]
  simp [Form.Next, isViable_iff, and_comm]

/-- **Errors are reported at the first impossible token, with what was possible there.** -/
theorem explains_of_ofTokens_eq_error {ts : List Token} {e : GrammarError}
    (h : ofTokens ts = .error e) : e.Explains ts := by
  obtain ⟨w, r, refused, rfl, hviable, hstop, hnotes, hout⟩ := ofTokens_run ts
  have hexpects := expects_of_notes hnotes
  cases hout with
  | accepted s hr hw hok =>
    subst hr
    rw [List.append_nil, hok] at h
    cases h
  | fault hw hfault =>
    obtain rfl : Grammar.fault ⟨r, refused, lastPosition {} w⟩ = e :=
      Except.error.inj ((hfault r rfl).symm.trans h)
    cases r with
    | nil =>
      rw [List.append_nil]
      exact ⟨isViable_iff.2 hviable, hexpects, rfl⟩
    | cons t r =>
      refine ⟨w, t, ⟨⟨r, rfl⟩, isViable_iff.2 hviable, ?_, rfl, ?_⟩, rfl, hexpects⟩
      · rw [isViable_iff]
        exact hstop t rfl
      · exact fun r' => hfault (t :: r') rfl
  | invalid k t text hk hflaky ht htext hinvalid =>
    obtain rfl : Form.invalidRetries text t.position = e :=
      Except.error.inj ((hinvalid r rfl).symm.trans h)
    obtain ⟨r, rfl⟩ := List.head?_eq_some_iff.1 ht
    obtain ⟨w, rfl⟩ := List.getLast?_eq_some_iff.1 hk
    refine ⟨w, k, t, ⟨⟨r, rfl⟩, isViable_iff.2 hviable, ?_, rfl, ?_⟩, hflaky, htext, rfl, rfl⟩
    · rw [isViable_iff]
      exact hstop t rfl
    · exact fun r' => hinvalid (t :: r') rfl

/-- In a step at depth 1 a keyword of depth 4 is out of place. -/
theorem explains_deep_use :
    (⟨.unexpectedToken "keyword 'use'" ["SKIP_ENV", "SKIP", "MARKERS", "FLAKY", "PARAMETERIZE",
        "FOREACH", "BEFORE", "AFTER", "USE", "INPUT", "OUTPUT", "ID"], ⟨3, 8⟩⟩ :
      GrammarError).Explains
      [⟨.keyword .issue, ⟨0, 0⟩, 0⟩, ⟨.value "t", ⟨0, 7⟩, 0⟩, ⟨.keyword .steps, ⟨1, 0⟩, 0⟩,
        ⟨.identifier "s", ⟨2, 2⟩, 1⟩, ⟨.keyword .use, ⟨3, 8⟩, 4⟩] :=
  explains_of_ofTokens_eq_error (by rfl)

end TestScript.Script
