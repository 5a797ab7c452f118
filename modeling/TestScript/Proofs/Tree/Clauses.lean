import TestScript.Proofs.Grammar.Acceptance
import TestScript.Proofs.Tree.Sections

/-!
# Clauses

Each clause of the grammar derives the tokens of one entry exactly if the entry is that clause, and
gives what the entry says. A clause that opens a level derives the blocks of the entries below it.
-/

namespace TestScript.Script

open Document (Node Entry)
open Form Layout

variable {α β : Type} {d : Nat} {e : Entry Node} {slots : List Slot} {k : Keyword}
  {IsStep : Node → Prop}

/-! ## The token of a key -/

theorem role_of_keyword (hd : d ∈ k.depths) (hkey : e.key = k.text) (context : Context) :
    Role.of e.key d context = .keyword k :=
  (@Placed.role_eq_keyword_iff ⟨d, context, e⟩ k).2 ⟨hkey, hd⟩

/-- What a clause derives from the tokens of one entry. -/
theorem derives_clause_flat {C : Position → Form α} (hd : d ∈ k.depths) {a : α} :
    (keyword k d >>= C).Derives (flat d .body [e]) a ↔
      e.key = k.text ∧ (C e.position).Derives (inner d .body e) a := by
  have hkind : (Placed.keyToken ⟨d, .body, e⟩).kind = .keyword k ↔ e.key = k.text := by
    rw [Placed.keyToken_kind_eq_keyword_iff]
    exact and_iff_left hd
  rw [flat_singleton, derives_bind, ← hkind]
  constructor
  · intro h
    obtain ⟨u, v, p, h, hp, ha⟩ := h
    obtain ⟨t, rfl, ht, -, rfl⟩ := derives_token.1 hp
    obtain ⟨rfl, rfl⟩ := List.cons.inj h
    exact ⟨ht, ha⟩
  · intro h
    exact ⟨[_], _, e.position, rfl, derives_token.2 ⟨_, rfl, h.1, rfl, rfl⟩, h.2⟩

/-! ## Contents -/

/-- An entry is accepted if its key accepts its value and all entries below it are. -/
theorem accepted_singleton {context : Context} :
    Accepted (placedEntries d context [e]) ↔
      (Role.of e.key d context).Accepts e.value ∧
        Accepted (placedBelow (d + 1) (Role.of e.key d context) e.value) := by
  rw [placedEntries_singleton]
  exact List.forall_mem_cons

theorem allBlocks_singleton {context : Context} :
    AllBlocks (placedEntries d context [e]) ↔
      Placed.IsBlock ⟨d, context, e⟩ ∧
        AllBlocks (placedBelow (d + 1) (Role.of e.key d context) e.value) := by
  rw [placedEntries_singleton]
  exact List.forall_mem_cons

variable {C : Position → Form α} {of : Entry Node → α}

/-- A clause reads an entry of its keyword if its content reads the value. -/
theorem ReadsEntry.of_content (hd : d ∈ k.depths) (hC : ∀ p, (C p).Within (under d))
    (h : ∀ e a, Role.of e.key d .body = .keyword k →
      (Accepted (placedEntries d .body [e]) ∧ (C e.position).Derives (inner d .body e) a ↔
        AllBlocks (placedEntries d .body [e]) ∧ Holds IsStep k e.value ∧ a = of e)) :
    ReadsEntry d .body (keyword k d >>= C) (IsClause IsStep [k] fun _ => of) where
  isBlock := (headed_clause hC).isBlock fun _ => not_isUnder_of_mem_keywordsAt
  derives_iff e a := by
    rw [derives_clause_flat hd]
    constructor
    · intro hread
      obtain ⟨hacc, hkey, ha⟩ := hread
      obtain ⟨hblocks, hvalue, rfl⟩ := (h e a (role_of_keyword hd hkey .body)).1 ⟨hacc, ha⟩
      exact ⟨hblocks, k, List.mem_singleton.2 rfl, hkey, hvalue, rfl⟩
    · intro hread
      obtain ⟨hblocks, k', hk', hkey, hvalue, rfl⟩ := hread
      obtain rfl := List.mem_singleton.1 hk'
      obtain ⟨hacc, ha⟩ := (h e _ (role_of_keyword hd hkey .body)).2 ⟨hblocks, hvalue, rfl⟩
      exact ⟨hacc, hkey, ha⟩

/-- A clause that opens no level reads the value alone. -/
theorem ReadsEntry.of_flat (hd : d ∈ k.depths) (hk : k.shape ≠ .steps)
    (hC : ∀ p, (C p).Within (under d))
    (h : ∀ e a, (Role.keyword k).Accepts e.value ∧
        (C e.position).Derives (ownTokens (.keyword k) d e.value) a ↔
      Holds IsStep k e.value ∧ a = of e) :
    ReadsEntry d .body (keyword k d >>= C) (IsClause IsStep [k] fun _ => of) := by
  refine .of_content hd hC fun e a hrole => ?_
  have hbelow : (Role.keyword k).Accepts e.value →
      placedBelow (d + 1) (.keyword k) e.value = [] :=
    placedBelow_of_accepts fun _ _ _ _ => if_neg hk
  -- Such a key asks nothing of how its value is written.
  have hblock : Placed.IsBlock ⟨d, .body, e⟩ := by
    intro hsteps
    have hrole' : Placed.role ⟨d, .body, e⟩ = .keyword k := hrole
    rw [hrole'] at hsteps
    rcases hsteps with hstep | ⟨k', hk', hshape⟩
    · cases hstep
    · cases hk'
      exact absurd hshape hk
  rw [accepted_singleton, allBlocks_singleton, inner, hrole]
  constructor
  · intro hread
    obtain ⟨⟨haccepts, -⟩, ha⟩ := hread
    rw [hbelow haccepts, List.flatMap_nil, List.append_nil] at ha
    rw [hbelow haccepts]
    exact ⟨⟨hblock, List.forall_mem_nil _⟩, (h e a).1 ⟨haccepts, ha⟩⟩
  · intro hread
    obtain ⟨-, hvalue⟩ := hread
    obtain ⟨haccepts, ha⟩ := (h e a).2 hvalue
    rw [hbelow haccepts, List.flatMap_nil, List.append_nil]
    exact ⟨⟨haccepts, List.forall_mem_nil _⟩, ha⟩

/-- What a clause without a level says is made of its place and what its value says. -/
theorem ReadsEntry.of_flat_map {F : Form β} (f : Position → β → α) (g : Node → β)
    (hd : d ∈ k.depths) (hk : k.shape ≠ .steps) (hF : F.Within (under d))
    (h : ∀ value x, (Role.keyword k).Accepts value ∧
        F.Derives (ownTokens (.keyword k) d value) x ↔ Holds IsStep k value ∧ x = g value) :
    ReadsEntry d .body (keyword k d >>= fun p => F >>= fun x => pure (f p x))
      (IsClause IsStep [k] fun _ e => f e.position (g e.value)) := by
  refine .of_flat hd hk (fun p => hF.bind fun _ => .pure _) fun e a => ?_
  rw [derives_map]
  constructor
  · intro hread
    obtain ⟨haccepts, x, hx, rfl⟩ := hread
    obtain ⟨hvalue, rfl⟩ := (h e.value x).1 ⟨haccepts, hx⟩
    exact ⟨hvalue, rfl⟩
  · intro hread
    obtain ⟨hvalue, rfl⟩ := hread
    obtain ⟨haccepts, hx⟩ := (h e.value _).2 ⟨hvalue, rfl⟩
    exact ⟨haccepts, _, hx, rfl⟩

/-! ## Values and objects -/

theorem derives_value_singleton {text : String} {p : Position} {x : String × Position} :
    Form.value.Derives [⟨.value text, p, d⟩] x ↔ x = (text, p) := by
  rw [Form.value, derives_token]
  constructor
  · intro h
    obtain ⟨t, ht, htext, hp⟩ := h
    cases ht
    cases htext
    exact Prod.ext rfl hp.symm
  · intro h
    subst h
    exact ⟨_, rfl, rfl, rfl⟩

theorem derives_object_singleton {payload : Payload} {p : Position} {x : Param} :
    Form.object.Derives [⟨.object payload, p, d⟩] x ↔ x = ⟨payload, p⟩ := by
  obtain ⟨payload', p'⟩ := x
  rw [Form.object, derives_token]
  constructor
  · intro h
    obtain ⟨t, ht, hpayload, hp⟩ := h
    cases ht
    cases hpayload
    cases hp
    rfl
  · intro h
    cases h
    exact ⟨_, rfl, rfl, rfl⟩

theorem not_derives_token_nil {means : Token → α → Prop} {a : α} :
    ¬ (token means).Derives [] a := by
  intro h
  obtain ⟨t, h, -⟩ := derives_token.1 h
  cases h

/-- The one value of a scalar. -/
theorem derives_value_iff {value : Node} {x : String × Position} :
    IsText value ∧ Form.value.Derives (textTokens d (texts false value)) x ↔
      IsScalar value ∧ x = (textOf value, value.position) := by
  cases value with
  | scalar text quoted p => exact and_congr Iff.rfl derives_value_singleton
  | null p => exact ⟨fun h => absurd h.2 not_derives_token_nil, fun h => h.1.elim⟩
  | mapping | list => exact ⟨fun h => h.1.elim, fun h => h.1.elim⟩

theorem IsRetryCount.eq_retriesOf {text : String} {n : Nat} (h : IsRetryCount text n) :
    n = retriesOf text := by
  obtain ⟨sign, digits, htext, hsign, hne, hdigits, rfl, -⟩ := h
  have hdrop : digits.dropWhile (· == '+') = digits := by
    cases digits with
    | nil => rfl
    | cons c cs =>
      have hc : ¬ (c == '+') = true := by
        intro hplus
        rw [eq_of_beq hplus] at hdigits
        exact absurd (hdigits '+' List.mem_cons_self) (by decide)
      exact List.dropWhile_cons_of_neg hc
  rw [retriesOf, htext]
  rcases hsign with rfl | rfl
  · rw [List.nil_append, hdrop]
  · show Number.ofDigits digits = Number.ofDigits (digits.dropWhile (· == '+'))
    rw [hdrop]

/-- The number of retries that a scalar counts. -/
theorem derives_retryCount_iff {value : Node} {n : Nat} :
    IsText value ∧ retryCount.Derives (textTokens d (texts false value)) n ↔
      IsRetries value ∧ n = retriesOf (textOf value) := by
  cases value with
  | scalar text quoted p =>
    have hcount : retryCount.Derives [⟨.value text, p, d⟩] n ↔ IsRetryCount text n := by
      rw [retryCount, derives_token]
      constructor
      · intro h
        obtain ⟨t, ht, text', htext, hn⟩ := h
        cases ht
        cases htext
        exact hn
      · exact fun h => ⟨_, rfl, text, rfl, h⟩
    show True ∧ retryCount.Derives [⟨.value text, p, d⟩] n ↔
      (∃ n, IsRetryCount text n) ∧ n = retriesOf text
    rw [hcount]
    constructor
    · intro h
      exact ⟨⟨n, h.2⟩, h.2.eq_retriesOf⟩
    · intro h
      obtain ⟨⟨m, hm⟩, rfl⟩ := h
      rw [← hm.eq_retriesOf]
      exact ⟨trivial, hm⟩
  | null p => exact ⟨fun h => absurd h.2 not_derives_token_nil, fun h => h.1.elim⟩
  | mapping | list => exact ⟨fun h => h.1.elim, fun h => h.1.elim⟩

/-- Values are read one by one. -/
theorem derives_values_iff {xs ys : List (String × Position)} :
    Form.value.many.Derives (textTokens d xs) ys ↔ ys = xs := by
  induction xs generalizing ys with
  | nil =>
    cases ys with
    | nil => simp [textTokens]
    | cons y ys =>
      refine ⟨fun h => ?_, fun h => absurd h (List.cons_ne_nil y ys)⟩
      obtain ⟨u, v, h, hy, -⟩ := derives_many_cons.1 h
      obtain ⟨rfl, rfl⟩ := List.append_eq_nil_iff.1 h.symm
      exact absurd hy not_derives_token_nil
  | cons x xs ih =>
    cases ys with
    | nil =>
      rw [derives_many_nil]
      exact iff_of_false (by simp [textTokens]) (List.cons_ne_nil x xs).symm
    | cons y ys =>
      rw [derives_many_cons]
      constructor
      · intro h
        obtain ⟨u, v, h, hy, hys⟩ := h
        obtain ⟨t, rfl, -⟩ := derives_token.1 hy
        obtain ⟨rfl, rfl⟩ := List.cons.inj h
        rw [derives_value_singleton.1 hy, ih.1 hys]
      · intro h
        cases h
        exact ⟨[_], _, rfl, derives_value_singleton.2 rfl, ih.2 rfl⟩

/-! ## Clauses without a level -/

theorem ownTokens_of_blob {value : Node} {b : Bool} (h : k.shape = .blob b) :
    ownTokens (.keyword k) d value = [⟨.object value.toPayload, value.position, d⟩] := by
  simp [ownTokens, Role.isBlob, h]

theorem reads_skipEnv (hd : d ∈ Keyword.skipEnv.depths) :
    ReadsEntry d .body (skipEnv d) (IsClause IsStep [.skipEnv] fun _ => skipEnvOf) :=
  .of_flat_map (fun p (x : String × Position) => (⟨x.1, p⟩ : SkipEnv))
    (fun value => (textOf value, value.position)) hd (by decide)
    (within_value contents_subset_under) fun _ _ => derives_value_iff

theorem reads_use (hd : d ∈ Keyword.use.depths) :
    ReadsEntry d .body (use d) (IsClause IsStep [.use] fun _ => useOf) :=
  .of_flat_map (fun p (x : String × Position) => (⟨x.1, p⟩ : Use))
    (fun value => (textOf value, value.position)) hd (by decide)
    (within_value contents_subset_under) fun _ _ => derives_value_iff

theorem reads_flaky (hd : d ∈ Keyword.flaky.depths) :
    ReadsEntry d .body (flaky d) (IsClause IsStep [.flaky] fun _ => flakyOf) :=
  .of_flat_map (fun p n => (⟨n, p⟩ : Flaky))
    (fun value => retriesOf (textOf value)) hd (by decide)
    (.token fun _ _ ⟨text, ht, _⟩ => contents_subset_under (.inl ⟨text, ht⟩))
    fun _ _ => derives_retryCount_iff

theorem reads_skip (hd : d ∈ Keyword.skip.depths) :
    ReadsEntry d .body (skip d) (IsClause IsStep [.skip] fun _ => skipOf) :=
  .of_flat_map
    (fun p (words : List (String × Position)) =>
      (⟨if words = [] then none else some (" ".intercalate (words.map Prod.fst)), p⟩ : Skip))
    (texts false) hd (by decide) (within_value contents_subset_under).many
    fun _ _ => and_congr Iff.rfl derives_values_iff

theorem reads_markers (hd : d ∈ Keyword.markers.depths) :
    ReadsEntry d .body (Form.markers d) (IsClause IsStep [.markers] fun _ => markersOf) :=
  .of_flat_map (fun p (names : List (String × Position)) => (⟨names.map Prod.fst, p⟩ : Markers))
    (texts true) hd (by decide) (within_value contents_subset_under).many
    fun _ _ => and_congr Iff.rfl derives_values_iff

theorem reads_repeated {mode : RepeatMode} (hk : k.shape = .blob false) (hd : d ∈ k.depths)
    (hholds : ∀ value, Holds IsStep k value ↔ IsBlob false value) :
    ReadsEntry d .body (repeated k mode d) (IsClause IsStep [k] fun _ => parameterizeOf mode) := by
  refine .of_flat_map (fun p x => (⟨mode, x, p⟩ : Parameterize))
    (fun value => ⟨value.toPayload, value.position⟩) hd (by simp [hk])
    (within_object contents_subset_under) fun value x => ?_
  rw [ownTokens_of_blob hk, derives_object_singleton, hholds]
  simp [Role.Accepts, hk]

/-- One object, and no other behind it. -/
theorem derives_objects_singleton {payload : Payload} {p : Position} {xs : List Param} :
    (Form.object >>= fun x => Form.object.many >>= fun xs => pure (x :: xs)).Derives
      [⟨.object payload, p, d⟩] xs ↔ xs = [⟨payload, p⟩] := by
  rw [derives_bind]
  constructor
  · intro h
    obtain ⟨u, v, x, h, hx, hxs⟩ := h
    obtain ⟨t, rfl, -⟩ := derives_token.1 hx
    obtain ⟨rfl, rfl⟩ := List.cons.inj h
    obtain ⟨ys, hys, rfl⟩ := derives_map.1 hxs
    rw [derives_object_singleton.1 hx]
    cases ys with
    | nil => rfl
    | cons y ys =>
      obtain ⟨u, v, h, hy, -⟩ := derives_many_cons.1 hys
      obtain ⟨rfl, rfl⟩ := List.append_eq_nil_iff.1 h.symm
      exact absurd hy not_derives_token_nil
  · intro h
    subst h
    exact ⟨[_], [], ⟨payload, p⟩, rfl, derives_object_singleton.2 rfl,
      derives_map.2 ⟨[], derives_many_nil.2 rfl, rfl⟩⟩

theorem reads_params (hk : k.shape = .blob true) (hd : d ∈ k.depths)
    (hholds : ∀ value, Holds IsStep k value ↔ IsBlob true value) :
    ReadsEntry d .body (params k d) (IsClause IsStep [k] fun _ e => [paramOf e]) := by
  have hwithin : object.Within (under d) := within_object contents_subset_under
  refine .of_flat hd (by simp [hk])
    (fun p => hwithin.bind fun _ => hwithin.many.bind fun _ => .pure _) fun e a => ?_
  rw [ownTokens_of_blob hk, derives_objects_singleton, hholds]
  simp [Role.Accepts, hk, paramOf]

theorem ReadsEntry.congr {context : Context} {F : Form α} {Means Means' : Entry Node → α → Prop}
    (hF : ReadsEntry d context F Means) (h : ∀ e a, Means e a ↔ Means' e a) :
    ReadsEntry d context F Means' where
  isBlock := hF.isBlock
  derives_iff e a := (hF.derives_iff e a).trans (and_congr Iff.rfl (h e a))

/-- A clause of one of two keywords. -/
theorem ReadsEntry.or {F G H : Form α} {ks ks' : List Keyword} {of : Keyword → Entry Node → α}
    (h : ∀ w a, F.Derives w a ↔ G.Derives w a ∨ H.Derives w a)
    (hG : ReadsEntry d .body G (IsClause IsStep ks of))
    (hH : ReadsEntry d .body H (IsClause IsStep ks' of)) :
    ReadsEntry d .body F (IsClause IsStep (ks ++ ks') of) where
  isBlock w a hw := ((h w a).1 hw).elim (hG.isBlock w a) (hH.isBlock w a)
  derives_iff e a := by
    rw [h, and_or_left, hG.derives_iff, hH.derives_iff, ← and_or_left]
    simp only [IsClause, List.mem_append, or_and_right, exists_or]

/-- Which way of repeating a step a keyword names. -/
def repeatModeOf : Keyword → RepeatMode
  | .foreach => .foreach
  | _ => .parameterize

theorem reads_parameterize (hd : d ∈ Keyword.parameterize.depths) :
    ReadsEntry d .body (parameterize d) (IsClause IsStep [.parameterize, .foreach]
      fun k => parameterizeOf (repeatModeOf k)) := by
  have hparameterize : ReadsEntry d .body (repeated .parameterize .parameterize d)
      (IsClause IsStep [.parameterize] fun _ => parameterizeOf .parameterize) :=
    reads_repeated rfl hd fun _ => Iff.rfl
  have hforeach : ReadsEntry d .body (repeated .foreach .foreach d)
      (IsClause IsStep [.foreach] fun _ => parameterizeOf .foreach) :=
    reads_repeated rfl hd fun _ => Iff.rfl
  show ReadsEntry d .body (parameterize d) (IsClause IsStep ([.parameterize] ++ [.foreach]) _)
  refine .or (fun _ _ => derives_parameterize) (hparameterize.congr fun e a => ?_)
    (hforeach.congr fun e a => ?_)
  · simp [IsClause, repeatModeOf]
  · simp [IsClause, repeatModeOf]

theorem among_repeatMode (clause : Keyword → Option (Entry Node)) :
    among [.parameterize, .foreach] (fun k => parameterizeOf (repeatModeOf k)) clause =
      ((clause .parameterize).map (parameterizeOf .parameterize)).or
        ((clause .foreach).map (parameterizeOf .foreach)) := by
  rw [among, List.findSome?_cons, List.findSome?_cons, List.findSome?_nil]
  cases clause .parameterize <;> cases clause .foreach <;> rfl

end TestScript.Script
