import TestScript.Proofs.Grammar.Productions
import TestScript.Proofs.Layout.Flattening
import TestScript.Proofs.Layout.Nesting

/-!
# Productions on the tokens of a document

In front of the tokens of some entries of a document a production of the grammar takes whole
entries, or it fails at one of them: where a key is taken, what its clause needs stands behind
it, and no more than that. `Fits` says so of a production, and one lemma for each way of building
carries it over, with what is known of the results.
-/

namespace TestScript.Script

open Document (Node Entry)
open Grammar

variable {α β : Type} {xs ys zs : List Placed} {x : Placed} {d : Nat}

/-! ## Errors about entries -/

/-- An error of the grammar is about one of some entries: a key that was not expected, or a
scalar under a flaky key. What is missing is never just an object. -/
def GrammarError.IsAbout (e : GrammarError) (xs : List Placed) : Prop :=
  match e.cause with
  | .unexpectedToken found expected =>
    expected ≠ ["OBJECT"] ∧ ∃ x ∈ xs, x.keyToken.isKey = true ∧ found = x.keyToken.kind.describe ∧
      e.position = x.entry.position
  | .unexpectedEnd expected => expected ≠ ["OBJECT"]
  | .invalidValue clause text _ =>
    clause = "flaky" ∧ ∃ x ∈ xs, x.role = .keyword .flaky ∧
      ∃ quoted, x.entry.value = .scalar text quoted e.position

theorem GrammarError.IsAbout.mono {e : GrammarError} (h : e.IsAbout ys) (hsub : ys ⊆ xs) :
    e.IsAbout xs := by
  obtain ⟨cause, position⟩ := e
  cases cause with
  | unexpectedToken found expected =>
    obtain ⟨hexpected, x, hx, h⟩ := h
    exact ⟨hexpected, x, hsub hx, h⟩
  | unexpectedEnd expected => exact h
  | invalidValue clause text reason =>
    obtain ⟨hclause, x, hx, h⟩ := h
    exact ⟨hclause, x, hsub hx, h⟩

/-- Nothing fits in front of an entry, where something else than an object would have. -/
theorem isAbout_fault {s : Lookahead} (hrest : s.rest = xs.flatMap Placed.tokens)
    {terminal : String} (hmem : terminal ∈ s.refused) (hne : terminal ≠ "OBJECT") :
    (fault s).IsAbout xs := by
  have hexpected : s.refused ≠ ["OBJECT"] := fun h => by simp [h, hne] at hmem
  unfold fault
  cases xs with
  | nil =>
    rw [hrest]
    exact hexpected
  | cons x xs =>
    rw [hrest]
    exact ⟨hexpected, x, List.mem_cons_self, x.isKey_keyToken, rfl, rfl⟩

/-! ## Runs -/

/-- Of some entries others are left, behind entries of a level or deeper ones. -/
def Leaves (d : Nat) (xs ys : List Placed) : Prop :=
  ∃ taken, xs = taken ++ ys ∧ ∀ x ∈ taken, d ≤ x.level

theorem Leaves.refl (d : Nat) (xs : List Placed) : Leaves d xs xs :=
  ⟨[], rfl, fun x hx => by simp at hx⟩

theorem Leaves.cons (h : d ≤ x.level) (xs : List Placed) : Leaves d (x :: xs) xs :=
  ⟨[x], rfl, by simpa using h⟩

theorem Leaves.trans (h : Leaves d xs ys) (h' : Leaves d ys zs) : Leaves d xs zs := by
  obtain ⟨us, rfl, hus⟩ := h
  obtain ⟨vs, rfl, hvs⟩ := h'
  exact ⟨us ++ vs, by simp, List.forall_mem_append.2 ⟨hus, hvs⟩⟩

theorem Leaves.mono {e : Nat} (h : Leaves e xs ys) (hd : d ≤ e) : Leaves d xs ys := by
  obtain ⟨us, rfl, hus⟩ := h
  exact ⟨us, rfl, fun x hx => hd.trans (hus x hx)⟩

theorem Leaves.subset (h : Leaves d xs ys) : ys ⊆ xs := by
  obtain ⟨us, rfl, -⟩ := h
  exact List.subset_append_right us ys

/-- Entries as they stand in a document: with values that their keys may have, each followed by
the entries below it. -/
structure Outline (xs : List Placed) : Prop where
  accepts : ∀ x ∈ xs, x.role.Accepts x.entry.value
  nested : Nested xs

theorem Outline.of_leaves (h : Outline xs) (hleaves : Leaves d xs ys) : Outline ys := by
  refine ⟨fun x hx => h.accepts x (hleaves.subset hx), ?_⟩
  obtain ⟨us, rfl, -⟩ := hleaves
  exact h.nested.of_append

theorem Under.of_leaves {c : Context} (h : Under c d xs) (hleaves : Leaves d xs ys) :
    Under c d ys := by
  obtain ⟨us, rfl, hus⟩ := hleaves
  exact h.of_append hus

/-- What comes of the tokens of some entries: some of the entries are taken as a whole, all of a
level or deeper, and `P` holds of the result; or there is an error about one of the entries. -/
inductive Meets (d : Nat) (xs : List Placed) (P : α → Lookahead → Prop) :
    Except GrammarError (α × Lookahead) → Prop
  | ok {a : α} {s : Lookahead} {ys : List Placed} (ha : P a s) (hleaves : Leaves d xs ys)
      (hrest : s.rest = ys.flatMap Placed.tokens) : Meets d xs P (.ok (a, s))
  | error {e : GrammarError} (h : e.IsAbout xs) : Meets d xs P (.error e)

namespace Meets

variable {P : α → Lookahead → Prop} {Q : β → Lookahead → Prop} {s : Lookahead}

theorem pure {a : α} (ha : P a s) (hrest : s.rest = xs.flatMap Placed.tokens) :
    Meets d xs P ((Pure.pure a : Production α) s) :=
  .ok ha (.refl d xs) hrest

theorem mono {e : Nat} {P' : α → Lookahead → Prop} {r : Except GrammarError (α × Lookahead)}
    (h : Meets e xs P r) (hd : d ≤ e) (hP : ∀ a s, P a s → P' a s) : Meets d xs P' r := by
  cases h with
  | ok ha hleaves hrest => exact .ok (hP _ _ ha) (hleaves.mono hd) hrest
  | error h => exact .error h

theorem of_leaves {r : Except GrammarError (α × Lookahead)} (h : Meets d ys P r)
    (hleaves : Leaves d xs ys) : Meets d xs P r := by
  cases h with
  | ok ha hleaves' hrest => exact .ok ha (hleaves.trans hleaves') hrest
  | error h => exact .error (h.mono hleaves.subset)

theorem bind {p : Production α} {f : α → Production β} (h : Meets d xs P (p s))
    (hf : ∀ a s' ys, p s = .ok (a, s') → P a s' → Leaves d xs ys →
      s'.rest = ys.flatMap Placed.tokens → Meets d xs Q (f a s')) :
    Meets d xs Q ((p >>= f) s) := by
  cases hs : p s with
  | error e =>
    rw [hs] at h
    cases h with
    | error h =>
      rw [bind_of_error hs]
      exact .error h
  | ok r =>
    obtain ⟨a, s'⟩ := r
    rw [hs] at h
    cases h with
    | ok ha hleaves hrest =>
      rw [bind_of_ok hs]
      exact hf a s' _ hs ha hleaves hrest

/-- What follows may be about the entries that are left alone. -/
theorem andThen {p : Production α} {f : α → Production β} (h : Meets d xs P (p s))
    (hf : ∀ a s' ys, p s = .ok (a, s') → P a s' → Leaves d xs ys →
      s'.rest = ys.flatMap Placed.tokens → Meets d ys Q (f a s')) :
    Meets d xs Q ((p >>= f) s) :=
  h.bind fun a s' ys hrun ha hleaves hrest => (hf a s' ys hrun ha hleaves hrest).of_leaves hleaves

theorem map {p : Production α} {g : α → β} (h : Meets d xs P (p s))
    (hg : ∀ a s', P a s' → Q (g a) s') :
    Meets d xs Q ((p >>= fun a => Pure.pure (g a)) s) :=
  h.bind fun a s' _ _ ha hleaves hrest => .ok (hg a s' ha) hleaves hrest

/-- Where something else than an object was turned down, an error is about an entry. -/
theorem unexpected (hrest : s.rest = xs.flatMap Placed.tokens) {terminal : String}
    (hmem : terminal ∈ s.refused) (hne : terminal ≠ "OBJECT") :
    Meets d xs P ((Grammar.unexpected : Production α) s) := by
  rw [unexpected_eq]
  exact .error (isAbout_fault hrest hmem hne)

theorem required {P : α → Prop} {terminal : String} (hne : terminal ≠ "OBJECT")
    {p : Production (Option α)}
    (h : Meets d xs (fun a s' => (∀ b ∈ a, P b) ∧ (a = none → terminal ∈ s'.refused)) (p s)) :
    Meets d xs (fun a _ => P a) (Grammar.required p s) := by
  refine h.andThen fun a s' ys _ ha _ hrest => ?_
  cases a with
  | some a => exact .pure (ha.1 a rfl) hrest
  | none => exact .unexpected hrest (ha.2 rfl) hne

end Meets

/-- In front of the tokens of entries a production takes whole entries of a level or deeper
ones and gives what has a property, or it fails at one of them. -/
def Fits (d : Nat) (P : α → Prop) (p : Production α) : Prop :=
  ∀ xs s, Outline xs → s.rest = xs.flatMap Placed.tokens → Meets d xs (fun a _ => P a) (p s)

namespace Fits

variable {P : α → Prop} {Q : β → Prop}

theorem pure {a : α} (ha : P a) : Fits d P (Pure.pure a) :=
  fun _ _ _ hrest => .pure ha hrest

theorem mono {P' : α → Prop} {p : Production α} (hp : Fits d P p) (h : ∀ a, P a → P' a) :
    Fits d P' p :=
  fun xs s hxs hrest => (hp xs s hxs hrest).mono le_rfl fun a _ => h a

theorem bind {p : Production α} {f : α → Production β} (hp : Fits d P p)
    (hf : ∀ a, P a → Fits d Q (f a)) : Fits d Q (p >>= f) :=
  fun xs s hxs hrest => (hp xs s hxs hrest).andThen fun a s' ys _ ha hleaves hrest' =>
    hf a ha ys s' (hxs.of_leaves hleaves) hrest'

theorem map {p : Production α} {g : α → β} (hp : Fits d P p) (hg : ∀ a, P a → Q (g a)) :
    Fits d Q (p >>= fun a => Pure.pure (g a)) :=
  hp.bind fun a ha => .pure (hg a ha)

theorem orElse {P : α → Prop} {p q : Production (Option α)} (hp : Fits d (∀ b ∈ ·, P b) p)
    (hq : Fits d (∀ b ∈ ·, P b) q) : Fits d (∀ b ∈ ·, P b) (Grammar.orElse p q) := by
  refine hp.bind fun a ha => ?_
  cases a with
  | some a => exact .pure ha
  | none => exact hq

end Fits

/-! ## Keys -/

/-- The tokens behind the key of the first of some entries. -/
def behindKey (x : Placed) (xs : List Placed) : List Token :=
  ownTokens x.role x.level x.entry.value ++ xs.flatMap Placed.tokens

theorem flatMap_tokens_cons (x : Placed) (xs : List Placed) :
    (x :: xs).flatMap Placed.tokens = x.keyToken :: behindKey x xs := by
  rw [List.flatMap_cons, Placed.tokens, List.cons_append, behindKey]

theorem keyToken_kind (x : Placed) : x.keyToken.kind = x.role.tokenKind x.entry.key :=
  rfl

theorem mem_refused_refuse_self (terminal : String) (s : Lookahead) :
    terminal ∈ (refuse terminal s).refused :=
  mem_refused_refuse.2 (.inr rfl)

theorem rest_refuse (terminal : String) (s : Lookahead) : (refuse terminal s).rest = s.rest := by
  rw [refuse_eq]

/-- In front of entries a keyword is taken if it is the key of the first one. -/
theorem meets_keyword {k : Keyword} {Q : β → Lookahead → Prop} {f : Option Position → Production β}
    {s : Lookahead} (hrest : s.rest = xs.flatMap Placed.tokens)
    (hnone : ∀ s', s'.rest = s.rest → k.terminal ∈ s'.refused → Meets d xs Q (f none s'))
    (hsome : ∀ x ys s', xs = x :: ys → x.role = .keyword k → x.level = d →
      s'.rest = behindKey x ys → Meets d xs Q (f (some x.entry.position) s')) :
    Meets d xs Q ((keyword k d >>= f) s) := by
  by_cases hnot : ∀ x ∈ xs.head?, ¬ (x.role = .keyword k ∧ x.level = d)
  · have hrefuse : keyword k d s = .ok (none, refuse k.terminal s) := by
      refine accept_of_none fun t ht => ?_
      cases xs with
      | nil => simp [hrest] at ht
      | cons x xs =>
        rw [hrest, flatMap_tokens_cons] at ht
        obtain rfl := Option.some.inj ht
        have hx := hnot x rfl
        rw [keyToken_kind]
        cases hrole : x.role with
        | keyword k' =>
          simp only [hrole, Role.keyword.injEq] at hx
          exact if_neg hx
        | step | other => rfl
    rw [bind_of_ok hrefuse]
    exact hnone _ (rest_refuse _ _) (mem_refused_refuse_self _ _)
  · cases xs with
    | nil => simp at hnot
    | cons x xs =>
      obtain ⟨hrole, hlevel⟩ : x.role = .keyword k ∧ x.level = d := by simpa using hnot
      obtain ⟨rest, refused, last⟩ := s
      obtain rfl : rest = x.keyToken :: behindKey x xs := hrest.trans (flatMap_tokens_cons x xs)
      have htaken : keyword k d ⟨x.keyToken :: behindKey x xs, refused, last⟩ =
          .ok (some x.entry.position, { rest := behindKey x xs, last := x.entry.position }) := by
        refine accept_of_some ?_
        rw [keyToken_kind, hrole]
        exact if_pos ⟨rfl, hlevel⟩
      rw [bind_of_ok htaken]
      exact hsome x xs _ rfl hrole hlevel rfl

/-- In front of entries an identifier is taken if it is the key of the first one. -/
theorem meets_identifier {Q : β → Lookahead → Prop} {f : Option (String × Position) → Production β}
    {s : Lookahead} (hrest : s.rest = xs.flatMap Placed.tokens)
    (hnone : ∀ s', s'.rest = s.rest → "ID" ∈ s'.refused → Meets d xs Q (f none s'))
    (hsome : ∀ x ys s' name, xs = x :: ys → (∀ k, x.role ≠ .keyword k) → x.level = d →
      s'.rest = behindKey x ys → Meets d xs Q (f (some name) s')) :
    Meets d xs Q ((identifier d >>= f) s) := by
  by_cases hnot : ∀ x ∈ xs.head?, (∀ k, x.role ≠ .keyword k) → x.level ≠ d
  · have hrefuse : identifier d s = .ok (none, refuse "ID" s) := by
      refine accept_of_none fun t ht => ?_
      cases xs with
      | nil => simp [hrest] at ht
      | cons x xs =>
        rw [hrest, flatMap_tokens_cons] at ht
        obtain rfl := Option.some.inj ht
        have hx := hnot x rfl
        rw [keyToken_kind]
        cases hrole : x.role with
        | keyword k' => rfl
        | step | other => exact if_neg (hx fun k h => by cases hrole.symm.trans h)
    rw [bind_of_ok hrefuse]
    exact hnone _ (rest_refuse _ _) (mem_refused_refuse_self _ _)
  · cases xs with
    | nil => simp at hnot
    | cons x xs =>
      obtain ⟨hrole, hlevel⟩ : (∀ k, x.role ≠ .keyword k) ∧ x.level = d := by simpa using hnot
      obtain ⟨rest, refused, last⟩ := s
      obtain rfl : rest = x.keyToken :: behindKey x xs := hrest.trans (flatMap_tokens_cons x xs)
      have htaken : identifier d ⟨x.keyToken :: behindKey x xs, refused, last⟩ =
          .ok (some (x.entry.key, x.entry.position),
            { rest := behindKey x xs, last := x.entry.position }) := by
        refine accept_of_some ?_
        rw [keyToken_kind]
        cases h : x.role with
        | keyword k => exact absurd h (hrole k)
        | step | other => exact if_pos hlevel
      rw [bind_of_ok htaken]
      exact hsome x xs _ _ rfl hrole hlevel rfl

end TestScript.Script
