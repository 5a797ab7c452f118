import TestScript.Proofs.Grammar.Productions

/-!
# What is read as a script

A list of tokens is read as a script exactly if the form of scripts derives it, and it derives a
list in one way at most (`ofTokens_eq_ok_iff_derivation`).

The proof describes a whole run, `ofTokens_run`: how far the longest beginning of a script goes,
and what is done behind it.
-/

namespace TestScript.Script

open Grammar

/-! ## One whole run -/

/-- What comes of a list of tokens whose longest beginning of a script is `w`, with `r` behind
it. -/
inductive Outcome (w r : List Token) (refused : List String) : Prop
  | accepted (s : Script) (hr : r = []) (hw : Form.script.Derives w s) (h : ofTokens w = .ok s)
  | fault (hw : r = [] → ¬ Form.script.Spells w)
      (h : ∀ r', r'.head? = r.head? →
        ofTokens (w ++ r') = .error (Grammar.fault ⟨r', refused, lastPosition {} w⟩))
  | invalid (k t : Token) (text : String) (hk : w.getLast? = some k)
      (hflaky : k.kind = .keyword .flaky) (ht : r.head? = some t) (htext : t.kind = .value text)
      (h : ∀ r', r'.head? = r.head? →
        ofTokens (w ++ r') = .error (Form.invalidRetries text t.position))

theorem ofTokens_of_ok {ts : List Token} {s : Script} {l : Lookahead}
    (h : Grammar.script { rest := ts } = .ok (s, l)) : ofTokens ts = .ok s := by
  show (Grammar.script { rest := ts }).map Prod.fst = _
  rw [h]
  rfl

theorem ofTokens_of_error {ts : List Token} {e : GrammarError}
    (h : Grammar.script { rest := ts } = .error e) : ofTokens ts = .error e := by
  show (Grammar.script { rest := ts }).map Prod.fst = _
  rw [h]
  rfl

theorem atEnd_cons (s : Script) (t : Token) (r refused) (last : Position) :
    atEnd s ⟨t :: r, refused, last⟩ = .error (fault ⟨t :: r, refused, last⟩) :=
  rfl

/-- How a list of tokens is read: up to the end of the longest beginning of a script. -/
theorem ofTokens_run (ts : List Token) :
    ∃ w r refused, ts = w ++ r ∧ Form.script.Viable w ∧ (∀ t ∈ r.head?, ¬ Form.script.Next w t) ∧
      Form.script.Notes w [] refused ∧ Outcome w r refused := by
  obtain ⟨w, r, refused, ending, hs⟩ := Form.reads_body [] { rest := ts }
  refine ⟨w, r, refused, hs.rest_eq, hs.viable, hs.stop, hs.notes, ?_⟩
  have hscript : ∀ r', Grammar.script { rest := w ++ r' } = (body >>= atEnd) { rest := w ++ r' } :=
    fun r' => by rw [script_eq]
  cases hs.ends with
  | @done s hw =>
    cases r with
    | nil =>
      refine .accepted s rfl hw (ofTokens_of_ok (l := ⟨[], refused, lastPosition {} w⟩) ?_)
      have hrun := hs.run [] rfl
      rw [List.append_nil] at hrun
      rw [script_eq, bind_of_ok hrun]
      rfl
    | cons t r =>
      refine .fault (by simp) fun r' hr' => ofTokens_of_error ?_
      obtain ⟨r'', rfl⟩ := List.head?_eq_some_iff.1 hr'
      rw [hscript, bind_of_ok (hs.run _ hr'), atEnd_cons]
  | stuck hw =>
    refine .fault (fun _ => hw) fun r' hr' => ofTokens_of_error ?_
    rw [hscript]
    exact bind_of_error ((hs.run r' hr').trans (unexpected_eq _))
  | @invalid k t text hw hk hflaky ht htext =>
    refine .invalid k t text (by simpa using hk) hflaky ht htext fun r' hr' =>
      ofTokens_of_error ?_
    rw [hscript]
    exact bind_of_error (hs.run r' hr')

/-! ## Acceptance -/

/-- A list of tokens is read as what the form of scripts derives from it. -/
theorem ofTokens_eq_ok {ts : List Token} {s : Script} :
    ofTokens ts = .ok s ↔ Form.script.Derives ts s := by
  obtain ⟨w, r, refused, rfl, hviable, hstop, -, hout⟩ := ofTokens_run ts
  cases hout with
  | accepted s' hr hw h =>
    subst hr
    rw [List.append_nil, h]
    constructor
    · intro hs
      cases hs
      exact hw
    · intro hs
      rw [Form.unambiguous_script.derives_unique hw hs]
  | fault hw h =>
    rw [h r rfl]
    refine ⟨(by cases ·), fun hs => ?_⟩
    cases r with
    | nil => exact absurd (by simpa using hs.spells) (hw rfl)
    | cons t r => exact absurd hs.spells.viable.next (hstop t rfl)
  | invalid k t text hk hflaky ht htext h =>
    rw [h r rfl]
    refine ⟨(by cases ·), fun hs => ?_⟩
    obtain ⟨r', rfl⟩ := List.head?_eq_some_iff.1 ht
    exact absurd hs.spells.viable.next (hstop t rfl)

/-- **The grammar is what is accepted.** A list of tokens is read as a script exactly if it has a
derivation with that meaning. No list of tokens has two derivations. The keywords of what is read
stand at depths where they are keywords. -/
theorem ofTokens_eq_ok_iff_derivation (ts : List Token) (s : Script) :
    (ofTokens ts = .ok s ↔
      ∃ d : Form.script.Derivation, Form.script.tokens d = ts ∧ Form.script.meaning d = s) ∧
    (∀ d d', Form.script.tokens d = ts → Form.script.tokens d' = ts → d = d') ∧
    (ofTokens ts = .ok s → ∀ t ∈ ts, ∀ k, t.kind = .keyword k → t.depth ∈ k.depths) := by
  refine ⟨ofTokens_eq_ok, fun d d' hd hd' => ?_, fun h t ht => ?_⟩
  · exact Form.unambiguous_script (hd.trans hd'.symm)
  · exact Form.within_script ts s (ofTokens_eq_ok.1 h) t ht

end TestScript.Script
