import TestScript.Proofs.Grammar.Reading
import TestScript.Proofs.Grammar.Script

/-!
# The productions of a script read its forms

The clauses at one depth are told apart by their keywords, and what a clause holds is made of
values, objects and deeper keys. So clauses with different keywords can stand in a row
(`Clauses.bind`), a step ends in front of the next key that is not deeper than its clauses, and
the whole script is read as its form says.
-/

namespace TestScript.Script

/-! ## Retry counts -/

theorem retries?_eq_some_iff {text : String} {n : Nat} :
    Grammar.retries? text = some n ↔ IsRetryCount text n :=
  Number.readNatBelow?_eq_some_iff

theorem IsRetryCount.unique {text : String} {m n : Nat} (hm : IsRetryCount text m)
    (hn : IsRetryCount text n) : m = n := by
  rw [← retries?_eq_some_iff] at hm hn
  exact Option.some.inj (hm.symm.trans hn)

namespace Grammar

/-- Reads a value that counts retries. -/
def retryCount : Production Nat := do
  let (text, q) ← required value
  match retries? text with
  | some retries => return retries
  | none => throw (Form.invalidRetries text q)

theorem flaky_eq (d : Nat) :
    flaky d = clause .flaky d fun p => do
      let retries ← retryCount
      return (⟨retries, p⟩ : Flaky) := by
  unfold flaky retryCount
  congr 1
  funext p
  rw [bind_assoc]
  congr 1
  funext ⟨text, q⟩
  show (match retries? text with | some retries => _ | none => _) = _
  cases h : retries? text with
  | some n => simp [h]
  | none =>
    simp only [h]
    rfl

theorem value_of_kind {t : Token} {text : String} (h : t.kind = .value text) (rest : List Token)
    (refused : List String) (last : Position) :
    required value ⟨t :: rest, refused, last⟩ =
      .ok ((text, t.position), { rest, last := t.position }) :=
  bind_of_ok (accept_of_some (by simp [h]))

theorem retryCount_of_some {t : Token} {text : String} {n : Nat} (h : t.kind = .value text)
    (hn : retries? text = some n) (rest : List Token) (refused : List String) (last : Position) :
    retryCount ⟨t :: rest, refused, last⟩ = .ok (n, { rest, last := t.position }) := by
  unfold retryCount
  rw [bind_of_ok (value_of_kind h rest refused last)]
  show (match retries? text with | some retries => _ | none => _ : Production Nat) _ = _
  rw [hn]
  rfl

theorem retryCount_of_none {t : Token} {text : String} (h : t.kind = .value text)
    (hn : retries? text = none) (rest : List Token) (refused : List String) (last : Position) :
    retryCount ⟨t :: rest, refused, last⟩ = .error (Form.invalidRetries text t.position) := by
  unfold retryCount
  rw [bind_of_ok (value_of_kind h rest refused last)]
  show (match retries? text with | some retries => _ | none => _ : Production Nat) _ = _
  rw [hn]
  rfl

theorem value_of_ne {s : Lookahead} (h : ∀ t ∈ s.rest.head?, ∀ text, t.kind ≠ .value text) :
    required value s = unexpected (refuse "VALUE" s) := by
  have hnone : value s = .ok (none, refuse "VALUE" s) := by
    refine accept_of_none fun t ht => ?_
    cases hk : t.kind with
    | value text => exact absurd hk (h t ht text)
    | _ => rfl
  exact bind_of_ok hnone

end Grammar

namespace Form

variable {α β η σ : Type}

/-! ## Tokens -/

theorem typed_keyword {k : Keyword} {d : Nat} : (keyword k d).Typed (keywordsAt [k] d) ∅ :=
  .token (by grind) ⟨⟨.keyword k, {}, d⟩, {}, rfl, rfl, rfl⟩
    fun t p h => ⟨k, by simp, h.1, h.2.1⟩

theorem typed_identifier {d : Nat} : (identifier d).Typed (identifiersAt d) ∅ :=
  .token (by grind) ⟨⟨.identifier "", {}, d⟩, ("", {}), rfl, rfl, rfl⟩
    fun t x h => ⟨⟨x.1, h.1⟩, h.2.1⟩

theorem typed_value (d : Nat) : value.Typed (under d) ∅ :=
  .token (by grind) ⟨⟨.value "", {}, 0⟩, ("", {}), rfl, rfl⟩
    fun t x h => by simp [under, Token.IsUnder, h.1]

theorem typed_object (d : Nat) : object.Typed (under d) ∅ :=
  .token (by rintro t ⟨a, p⟩ ⟨b, q⟩ h h'; grind) ⟨⟨.object .null, {}, 0⟩, ⟨.null, {}⟩, rfl, rfl⟩
    fun t x h => by simp [under, Token.IsUnder, h.1]

theorem reads_keyword {k : Keyword} {d : Nat} :
    (keyword k d).opt.Reads (Grammar.keyword k d) := by
  refine reads_accept ?_ ?_ ⟨⟨.keyword k, {}, d⟩, {}, rfl, rfl, rfl⟩
  · intro t p
    cases t.kind <;> simp
    grind
  · intro t p h
    obtain ⟨hk, -⟩ := h
    simp [hk, Token.Kind.terminal]

theorem reads_identifier {d : Nat} : (identifier d).opt.Reads (Grammar.identifier d) := by
  refine reads_accept ?_ ?_ ⟨⟨.identifier "", {}, d⟩, ("", {}), rfl, rfl, rfl⟩
  · intro t h
    obtain ⟨text, p⟩ := h
    cases t.kind <;> simp
    grind
  · intro t p h
    obtain ⟨hk, -⟩ := h
    simp [hk, Token.Kind.terminal]

theorem reads_value : value.opt.Reads Grammar.value := by
  refine reads_accept ?_ ?_ ⟨⟨.value "", {}, 0⟩, ("", {}), rfl, rfl⟩
  · intro t h
    obtain ⟨text, p⟩ := h
    cases t.kind <;> simp
  · intro t p h
    obtain ⟨hk, -⟩ := h
    simp [hk, Token.Kind.terminal]

theorem reads_object : object.opt.Reads Grammar.object := by
  refine reads_accept ?_ ?_ ⟨⟨.object .null, {}, 0⟩, ⟨.null, {}⟩, rfl, rfl⟩
  · intro t h
    obtain ⟨payload, p⟩ := h
    cases t.kind <;> simp
  · intro t p h
    obtain ⟨hk, -⟩ := h
    simp [hk, Token.Kind.terminal]

/-- One token is not nothing. -/
theorem not_spells_token {means : Token → α → Prop} : ¬ (token means).Spells [] := by
  intro h
  obtain ⟨a, h⟩ := h
  simp at h

/-! ## Clauses in a row -/

/-- A production reads clauses of some keywords at a depth. -/
structure Clauses (ks : List Keyword) (depth : Nat) (F : Form α) (p : Production α) :
    Prop where
  typed : F.Typed (keywordsAt ks depth) (keywordsAt ks depth ∪ under depth)
  reads : F.Reads p

theorem Clauses.pure {depth : Nat} (a : α) : Clauses [] depth (Pure.pure a) (Pure.pure a) :=
  ⟨(Typed.pure a).mono (Set.empty_subset _) (Set.empty_subset _), Reads.pure a⟩

/-- Clauses of different keywords can stand in a row. -/
theorem Clauses.bind {ks ks' : List Keyword} {depth : Nat} {F : Form α} {G : α → Form β}
    {p : Production α} {f : α → Production β} (h : ∀ k ∈ ks, k ∉ ks')
    (hp : Clauses ks depth F p) (hf : ∀ a, Clauses ks' depth (G a) (f a)) :
    Clauses (ks ++ ks') depth (F >>= G) (p >>= f) := by
  have hG := fun a => (hf a).typed
  have hsep : Disjoint (keywordsAt ks depth ∪ under depth) (keywordsAt ks' depth) :=
    disjoint_keywordsAt h
  have hl : keywordsAt ks depth ⊆ keywordsAt (ks ++ ks') depth := by
    intro t h
    obtain ⟨k, hk, ht⟩ := h
    exact ⟨k, List.mem_append_left _ hk, ht⟩
  have hr : keywordsAt ks' depth ⊆ keywordsAt (ks ++ ks') depth := by
    intro t h
    obtain ⟨k, hk, ht⟩ := h
    exact ⟨k, List.mem_append_right _ hk, ht⟩
  exact ⟨hp.typed.bind hG hsep hl (fun _ => hr) (fun _ => Set.union_subset_union_left _ hl)
    (Set.union_subset_union_left _ hr), hp.reads.bind hp.typed hG hsep fun a => (hf a).reads⟩

theorem Typed.map {F : Form α} {first more : Set Token} (g : α → β) (hF : F.Typed first more) :
    (F >>= fun a => Pure.pure (g a)).Typed first more :=
  hF.bind (fun a => Typed.pure (g a)) (by simp) subset_rfl (fun _ => Set.empty_subset _)
    (fun _ => subset_rfl) (Set.empty_subset _)

theorem Reads.map {F : Form α} {p : Production α} (g : α → β) (hF : F.Unambiguous)
    (hp : F.Reads p) :
    (F >>= fun a => Pure.pure (g a)).Reads (p >>= fun a => Pure.pure (g a)) :=
  fun front s => (hp front s).map g hF

theorem Clauses.map {ks : List Keyword} {depth : Nat} {F : Form α} {p : Production α}
    (g : α → β) (hp : Clauses ks depth F p) :
    Clauses ks depth (F >>= fun a => Pure.pure (g a)) (p >>= fun a => Pure.pure (g a)) :=
  ⟨hp.typed.map g, hp.reads.map g hp.typed.unambiguous⟩

/-! ## One clause -/

theorem not_spells_nil_bind {F : Form α} {G : α → Form β} (hF : ¬ F.Spells []) :
    ¬ (F >>= G).Spells [] := by
  intro h
  obtain ⟨b, hb⟩ := h
  obtain ⟨u, v, a, h, ha, -⟩ := derives_bind.1 hb
  obtain ⟨rfl, rfl⟩ : u = [] ∧ v = [] := by simpa using h
  exact hF ha.spells

theorem clause_eq_andThen (k : Keyword) (depth : Nat) (content : Position → Production α) :
    Grammar.clause k depth content =
      Grammar.andThen (Grammar.keyword k depth) content := by
  unfold Grammar.clause Grammar.andThen
  congr 1
  funext found
  cases found <;> rfl

/-- A clause is its keyword and what belongs under it. -/
theorem Clauses.of_content {k : Keyword} {depth : Nat} {C : Position → Form α}
    {content : Position → Production α} {first more : Set Token}
    (hC : ∀ p, (C p).Typed first more) (hmore : more ⊆ under depth)
    (hr : ∀ u p front s, (keyword k depth).Derives u p →
      (C p).ReadsAt (content p) (front ++ u) s) :
    Clauses [k] depth (keyword k depth >>= C).opt (Grammar.clause k depth content) := by
  have htyped : (keyword k depth >>= C).Typed (keywordsAt [k] depth) (under depth) :=
    typed_keyword.bind hC (by simp) subset_rfl (fun h => absurd h not_spells_token)
      (fun _ => Set.empty_subset _) hmore
  rw [clause_eq_andThen]
  exact ⟨htyped.opt (not_spells_nil_bind not_spells_token),
    Reads.andThen typed_keyword not_spells_token hC (by simp) reads_keyword hr⟩

theorem typed_values (d : Nat) : value.many.Typed (under d) (under d) :=
  ((typed_value d).many not_spells_token (by simp)).mono subset_rfl (by simp)

theorem typed_objects (d : Nat) : object.many.Typed (under d) (under d) :=
  ((typed_object d).many not_spells_token (by simp)).mono subset_rfl (by simp)

theorem reads_values : value.many.Reads (Grammar.many Grammar.value) :=
  Reads.many (typed_value 0) not_spells_token (by simp) reads_value

theorem reads_objects : object.many.Reads (Grammar.many Grammar.object) :=
  Reads.many (typed_object 0) not_spells_token (by simp) reads_object

theorem reads_required_value : value.Reads (Grammar.required Grammar.value) :=
  reads_value.required not_spells_token (typed_value 0).viable

theorem reads_required_object : object.Reads (Grammar.required Grammar.object) :=
  reads_object.required not_spells_token (typed_object 0).viable

theorem clauses_markers (d : Nat) :
    Clauses [.markers] d ((markers d).optUnless (·.names.isEmpty)) (Grammar.markers d) := by
  have hcontent : Grammar.markers d =
      (Grammar.clause .markers d fun p => do
        let names ← Grammar.many Grammar.value
        return (⟨names.map Prod.fst, p⟩ : Markers)) >>=
      fun found => Pure.pure (found.filter (!·.names.isEmpty)) := by
    simp [Grammar.markers, Grammar.values]
  rw [hcontent]
  refine Clauses.map _ (Clauses.of_content (fun p => (typed_values d).map _) subset_rfl ?_)
  intro u p front s _
  exact reads_values.map _ (typed_values 0).unambiguous _ s

theorem clauses_skipEnv (d : Nat) :
    Clauses [.skipEnv] d (skipEnv d).opt (Grammar.skipEnv d) := by
  apply Clauses.of_content (fun p => (typed_value d).map _) (Set.empty_subset _)
  intro u p front s _
  exact reads_required_value.map _ (typed_value 0).unambiguous _ s

theorem clauses_skip (d : Nat) : Clauses [.skip] d (skip d).opt (Grammar.skip d) := by
  have hcontent : Grammar.skip d = Grammar.clause .skip d fun p => do
      let words ← Grammar.many Grammar.value
      return (⟨if words = [] then none else some (" ".intercalate (words.map Prod.fst)), p⟩ :
        Skip) := by
    simp [Grammar.skip, Grammar.values]
  rw [hcontent]
  apply Clauses.of_content (fun p => (typed_values d).map _) subset_rfl
  intro u p front s _
  exact reads_values.map _ (typed_values 0).unambiguous _ s

theorem clauses_use (d : Nat) : Clauses [.use] d (use d).opt (Grammar.use d) := by
  apply Clauses.of_content (fun p => (typed_value d).map _) (Set.empty_subset _)
  intro u p front s _
  exact reads_required_value.map _ (typed_value 0).unambiguous _ s

theorem clauses_params (k : Keyword) (d : Nat) :
    Clauses [k] d (params k d).opt (Grammar.params k d) := by
  have hothers : ∀ first : Param,
      (object.many >>= fun others => Pure.pure (first :: others)).Typed (under d) (under d) :=
    fun first => (typed_objects d).map _
  have htyped : (object >>= fun first => object.many >>= fun others =>
      Pure.pure (first :: others)).Typed (under d) (under d) :=
    (typed_object d).bind hothers (by simp) subset_rfl (fun _ => subset_rfl)
      (fun _ => Set.empty_subset _) subset_rfl
  apply Clauses.of_content (fun _ => htyped) subset_rfl
  intro u p front s _
  exact reads_required_object.bind (typed_object d) hothers (by simp)
    (fun first => reads_objects.map _ (typed_objects 0).unambiguous) _ s

/-! ### Retries -/

theorem typed_retryCount (d : Nat) : retryCount.Typed (under d) ∅ := by
  refine .token ?_ ⟨⟨.value "0", {}, 0⟩, 0, "0", rfl, retries?_eq_some_iff.1 rfl⟩ ?_
  · intro t m n hm hn
    obtain ⟨text, ht, hm⟩ := hm
    obtain ⟨text', ht', hn⟩ := hn
    cases ht.symm.trans ht'
    exact hm.unique hn
  · intro t n h
    obtain ⟨text, ht, -⟩ := h
    simp [under, Token.IsUnder, ht]

/-- Behind the keyword of retries a value that is no count is an error of its own. -/
theorem readsAt_retryCount {front : List Token} {k : Token} (hk : front.getLast? = some k)
    (hflaky : k.kind = .keyword .flaky) (s : Lookahead) :
    retryCount.ReadsAt Grammar.retryCount front s := by
  have hterminals : ∀ x, (∃ t, retryCount.Next [] t ∧ t.kind.terminal = x) ↔ x = "VALUE" := by
    intro x
    simp only [retryCount, next_token, true_and]
    constructor
    · intro h
      obtain ⟨t, ⟨n, text, ht, -⟩, rfl⟩ := h
      simp [ht, Token.Kind.terminal]
    · intro h
      obtain rfl := h
      exact ⟨⟨.value "0", {}, 0⟩, ⟨0, "0", rfl, retries?_eq_some_iff.1 rfl⟩, rfl⟩
  have hnotes : retryCount.Notes [] s.refused (Grammar.refuse "VALUE" s).refused :=
    ⟨Grammar.nodup_refused_refuse, by simp [Grammar.mem_refused_refuse, hterminals]⟩
  have hviable : retryCount.Viable [] := (typed_retryCount 0).viable
  by_cases hvalue : ∀ t ∈ s.rest.head?, ∀ text, t.kind ≠ .value text
  · refine ⟨[], s.rest, _, Grammar.unexpected, rfl, hviable, ?_, hnotes,
      .stuck not_spells_token, ?_⟩
    · intro t ht hn
      obtain ⟨-, n, text, htext, -⟩ := next_token.1 hn
      exact hvalue t ht text htext
    · intro r' hr'
      have hrun := Grammar.value_of_ne (s := { s with rest := r' }) (by rwa [hr'])
      rw [Grammar.refuse_eq, Grammar.refused_refuse] at hrun
      rw [Grammar.unexpected_eq] at hrun ⊢
      exact Grammar.bind_of_error hrun
  · obtain ⟨_ | ⟨t, rest⟩, refused, last⟩ := s
    · simp at hvalue
    obtain ⟨text, htext⟩ : ∃ text, t.kind = .value text := by simpa using hvalue
    cases hn : Grammar.retries? text with
    | some n =>
      have hmeaning : ∃ text, t.kind = .value text ∧ IsRetryCount text n :=
        ⟨text, htext, retries?_eq_some_iff.1 hn⟩
      refine ⟨[t], rest, [], Pure.pure n, rfl, next_token.2 ⟨rfl, n, hmeaning⟩, ?_, ⟨?_, ?_⟩,
        .done (derives_token.2 ⟨t, rfl, hmeaning⟩), ?_⟩
      · simp [retryCount, next_token]
      · simp
      · simp [retryCount, next_token]
      · intro r' _
        exact Grammar.retryCount_of_some htext hn r' refused last
    | none =>
      refine ⟨[], t :: rest, _, _, rfl, hviable, ?_, hnotes,
        .invalid not_spells_token (by simpa using hk) hflaky rfl htext, ?_⟩
      · intro t' ht' hnext
        obtain rfl : t = t' := by simpa using ht'
        obtain ⟨-, n, text', htext', hcount⟩ := next_token.1 hnext
        cases htext.symm.trans htext'
        simp [retries?_eq_some_iff.2 hcount] at hn
      · intro r' hr'
        obtain ⟨rest', rfl⟩ := List.head?_eq_some_iff.1 hr'
        exact Grammar.retryCount_of_none htext hn rest' refused last

theorem clauses_flaky (d : Nat) : Clauses [.flaky] d (flaky d).opt (Grammar.flaky d) := by
  rw [Grammar.flaky_eq]
  apply Clauses.of_content (fun p => (typed_retryCount d).map _) (Set.empty_subset _)
  intro u p front s hu
  obtain ⟨k, rfl, hk, -⟩ := derives_token.1 hu
  exact (readsAt_retryCount (by simp) hk s).map _ (typed_retryCount d).unambiguous

/-- A step repeated in one mode. -/
def repeated (k : Keyword) (mode : RepeatMode) (d : Nat) : Form Parameterize := do
  let position ← keyword k d
  let payload ← object
  return ⟨mode, payload, position⟩

theorem derives_parameterize {d : Nat} {w : List Token} {a : Parameterize} :
    (parameterize d).Derives w a ↔
      (repeated .parameterize .parameterize d).Derives w a ∨
        (repeated .foreach .foreach d).Derives w a := by
  unfold parameterize repeated repeatMode keyword
  simp only [derives_bind, derives_token]
  constructor
  · intro h
    obtain ⟨u, v, ⟨mode, p⟩, rfl, ⟨t, rfl, (⟨ht, rfl⟩ | ⟨ht, rfl⟩), hd, hp⟩, ha⟩ := h
    · exact .inl ⟨[t], v, p, rfl, ⟨t, rfl, ht, hd, hp⟩, ha⟩
    · exact .inr ⟨[t], v, p, rfl, ⟨t, rfl, ht, hd, hp⟩, ha⟩
  · intro h
    rcases h with ⟨u, v, p, rfl, ⟨t, rfl, ht, hd, hp⟩, ha⟩ | ⟨u, v, p, rfl, ⟨t, rfl, ht, hd, hp⟩, ha⟩
    · exact ⟨[t], v, (.parameterize, p), rfl, ⟨t, rfl, .inl ⟨ht, rfl⟩, hd, hp⟩, ha⟩
    · exact ⟨[t], v, (.foreach, p), rfl, ⟨t, rfl, .inr ⟨ht, rfl⟩, hd, hp⟩, ha⟩

theorem clauses_repeated (k : Keyword) (mode : RepeatMode) (d : Nat) :
    Clauses [k] d (repeated k mode d).opt (Grammar.clause k d fun p => do
      let payload ← Grammar.required Grammar.object
      return (⟨mode, payload, p⟩ : Parameterize)) := by
  apply Clauses.of_content (fun p => (typed_object d).map _) (Set.empty_subset _)
  intro u p front s _
  exact reads_required_object.map _ (typed_object 0).unambiguous _ s

theorem parameterize_eq (d : Nat) :
    Grammar.parameterize d = Grammar.orElse
      (Grammar.clause .parameterize d fun p => do
        let payload ← Grammar.required Grammar.object
        return (⟨.parameterize, payload, p⟩ : Parameterize))
      (Grammar.clause .foreach d fun p => do
        let payload ← Grammar.required Grammar.object
        return (⟨.foreach, payload, p⟩ : Parameterize)) := by
  unfold Grammar.parameterize Grammar.orElse
  dsimp only
  congr 1
  funext found
  cases found <;> rfl

theorem clauses_parameterize (d : Nat) :
    Clauses [.parameterize, .foreach] d (parameterize d).opt (Grammar.parameterize d) := by
  have hsecond := clauses_repeated .foreach .foreach d
  have hobject : ∀ mode : RepeatMode × Position, (object >>= fun payload =>
      Pure.pure (⟨mode.1, payload, mode.2⟩ : Parameterize)).Typed (under d) ∅ :=
    fun mode => (typed_object d).map _
  have hmode : (repeatMode d).Typed (keywordsAt [.parameterize, .foreach] d) ∅ := by
    refine .token ?_ ⟨⟨.keyword .foreach, {}, d⟩, (.foreach, {}), .inr ⟨rfl, rfl⟩, rfl, rfl⟩ ?_
    · intro t x y hx hy
      obtain ⟨mode, p⟩ := x
      obtain ⟨mode', p'⟩ := y
      obtain ⟨hm, -, rfl⟩ := hx
      obtain ⟨hm', -, rfl⟩ := hy
      grind
    · intro t x h
      obtain ⟨⟨ht, -⟩ | ⟨ht, -⟩, hd, -⟩ := h
      · exact ⟨.parameterize, by simp, ht, hd⟩
      · exact ⟨.foreach, by simp, ht, hd⟩
  have htyped : (parameterize d).Typed (keywordsAt [.parameterize, .foreach] d) (under d) :=
    hmode.bind hobject (by simp) subset_rfl (fun h => absurd h not_spells_token)
      (fun _ => Set.empty_subset _) (Set.empty_subset _)
  refine ⟨htyped.opt (not_spells_nil_bind not_spells_token), ?_⟩
  rw [parameterize_eq]
  have hfirst : (repeated .parameterize .parameterize d).Typed (keywordsAt [.parameterize] d)
      (under d) :=
    typed_keyword.bind (fun p => (typed_object d).map _) (by simp) subset_rfl
      (fun h => absurd h not_spells_token) (fun _ => Set.empty_subset _) (Set.empty_subset _)
  have hreads := Reads.orElse hfirst (not_spells_nil_bind not_spells_token) hsecond.typed
    ((disjoint_keywordsAt (by simp)).mono_left Set.subset_union_left)
    (clauses_repeated .parameterize .parameterize d).reads hsecond.reads
  refine fun front s => (hreads front s).congr fun w b => ?_
  simp only [derives_orElse, derives_opt, derives_parameterize]

/-! ## Steps -/

/-- A production reads steps at a depth: one identifier and what belongs under it. -/
structure Steps (depth : Nat) (F : Form σ) (p : Production (Option σ)) : Prop where
  typed : F.Typed (identifiersAt depth) (under depth)
  not_spells : ¬ F.Spells []
  reads : F.opt.Reads p

theorem Steps.many {depth : Nat} {F : Form σ} {p : Production (Option σ)} (h : Steps depth F p) :
    F.many.Typed (identifiersAt depth) (identifiersAt depth ∪ under depth) ∧
      F.many.Reads (Grammar.many p) :=
  ⟨h.typed.many h.not_spells disjoint_under_identifiersAt,
    h.reads.many h.typed h.not_spells disjoint_under_identifiersAt⟩

theorem clauses_hooks {F : Nat → Form σ} {p : Nat → Production (Option σ)} (k : Keyword)
    (d : Nat) (h : Steps (d + 1) (F (d + 1)) (p (d + 1))) :
    Clauses [k] d ((hooks F k d).optUnless (·.steps.isEmpty)) (Grammar.hooksOf p k d) := by
  have hmore : identifiersAt (d + 1) ∪ under (d + 1) ⊆ under d :=
    Set.union_subset (identifiersAt_subset_under (by simp)) (under_subset_under (by simp))
  refine Clauses.map _ (Clauses.of_content (fun p => h.many.1.map _) hmore ?_)
  intro u p front s _
  exact h.many.2.map _ h.many.1.unambiguous _ s

/-- A step is its identifier and its clauses. -/
theorem step_eq (readHooks : Nat → Production η) (d : Nat) :
    Grammar.step readHooks d = Grammar.andThen (Grammar.identifier d) fun name => do
      let skipEnv ← Grammar.skipEnv (d + 1)
      let skip ← Grammar.skip (d + 1)
      let markers ← Grammar.markers (d + 1)
      let flaky ← Grammar.flaky (d + 1)
      let parameterize ← Grammar.parameterize (d + 1)
      let hooks ← readHooks (d + 1)
      let uses ← Grammar.use (d + 1)
      let input ← Grammar.params .input (d + 1)
      let output ← Grammar.params .output (d + 1)
      return { id := name.1, skipEnv, skip, markers, flaky, parameterize, hooks, uses, input,
               output, position := name.2 } := by
  unfold Grammar.step Grammar.andThen
  congr 1
  funext found
  cases found <;> simp only [bind_assoc, pure_bind]

theorem steps_step {hooks : Nat → Form η} {readHooks : Nat → Production η} {ks : List Keyword}
    (d : Nat) (hks : ∀ k ∈ ks, k = .before ∨ k = .after)
    (h : Clauses ks (d + 1) (hooks (d + 1)) (readHooks (d + 1))) :
    Steps d (step hooks d) (Grammar.step readHooks d) := by
  have hbefore : ∀ k : Keyword, k ≠ .before → k ≠ .after → k ∉ ks :=
    fun k h₁ h₂ hk => (hks k hk).elim h₁ h₂
  have hclauses := fun name : String × Position =>
    (clauses_skipEnv (d + 1)).bind (by simp [hbefore]) fun skipEnv =>
    (clauses_skip (d + 1)).bind (by simp [hbefore]) fun skip =>
    (clauses_markers (d + 1)).bind (by simp [hbefore]) fun markers =>
    (clauses_flaky (d + 1)).bind (by simp [hbefore]) fun flaky =>
    (clauses_parameterize (d + 1)).bind (by simp [hbefore]) fun parameterize =>
    h.bind (by rintro k hk; rcases hks k hk with rfl | rfl <;> simp) fun hooks =>
    (clauses_use (d + 1)).bind (by simp) fun uses =>
    (clauses_params .input (d + 1)).bind (by simp) fun input =>
    (clauses_params .output (d + 1)).map fun output =>
      ({ id := name.1, skipEnv, skip, markers, flaky, parameterize, hooks, uses, input, output,
         position := name.2 } : Step η)
  have hmore : ∀ ks, keywordsAt ks (d + 1) ∪ under (d + 1) ⊆ under d := fun ks =>
    Set.union_subset (keywordsAt_subset_under (by simp)) (under_subset_under (by simp))
  refine ⟨?_, not_spells_nil_bind not_spells_token, ?_⟩
  · exact typed_identifier.bind (fun name => (hclauses name).typed) (by simp) subset_rfl
      (fun h => absurd h not_spells_token) (fun _ => Set.empty_subset _) (hmore _)
  · rw [step_eq]
    exact Reads.andThen typed_identifier not_spells_token (fun name => (hclauses name).typed)
      (by simp) reads_identifier fun u name front s _ => (hclauses name).reads _ s

theorem steps_hookStep (d : Nat) : Steps d (hookStep d) (Grammar.hookStep d) :=
  steps_step d (by simp) (Clauses.pure ())

theorem clauses_ownHooks (d : Nat) :
    Clauses [.before, .after] d (ownHooks d) (Grammar.ownHooks d) :=
  (clauses_hooks .before d (steps_hookStep (d + 1))).bind (by simp) fun _ =>
    (clauses_hooks .after d (steps_hookStep (d + 1))).map _

theorem steps_mainStep (d : Nat) : Steps d (mainStep d) (Grammar.mainStep d) :=
  steps_step d (by simp) (clauses_ownHooks (d + 1))

/-! ## Scripts -/

/-- The main steps, from their keyword on. -/
theorem clauses_steps {g : List MainStep → α} :
    Clauses [.steps] 0
      (do
        let _ ← keyword .steps 0
        let first ← mainStep 1
        let others ← (mainStep 1).many
        return g (first :: others))
      (do
        let _ ← Grammar.required (Grammar.keyword .steps 0)
        let first ← Grammar.required (Grammar.mainStep 1)
        let others ← Grammar.many (Grammar.mainStep 1)
        return g (first :: others)) := by
  have hstep := steps_mainStep 1
  have hothers : ∀ first : MainStep, ((mainStep 1).many >>= fun others =>
      Pure.pure (g (first :: others))).Typed (identifiersAt 1) (identifiersAt 1 ∪ under 1) :=
    fun first => hstep.many.1.map _
  have hsteps : (mainStep 1 >>= fun first => (mainStep 1).many >>= fun others =>
      Pure.pure (g (first :: others))).Typed (identifiersAt 1) (identifiersAt 1 ∪ under 1) :=
    hstep.typed.bind hothers disjoint_under_identifiersAt subset_rfl
      (fun h => absurd h hstep.not_spells) (fun _ => Set.subset_union_right) subset_rfl
  have hmore : identifiersAt 1 ∪ under 1 ⊆ keywordsAt [.steps] 0 ∪ under 0 :=
    (Set.union_subset (identifiersAt_subset_under (by simp)) (under_subset_under (by simp))).trans
      Set.subset_union_right
  refine ⟨typed_keyword.bind (fun _ => hsteps) (by simp) subset_rfl
    (fun h => absurd h not_spells_token) (fun _ => Set.empty_subset _) hmore, ?_⟩
  refine Reads.bind typed_keyword (fun _ => hsteps) (by simp)
    (reads_keyword.required not_spells_token typed_keyword.viable) fun _ => ?_
  exact Reads.bind hstep.typed hothers disjoint_under_identifiersAt
    (hstep.reads.required hstep.not_spells hstep.typed.viable) fun first =>
      hstep.many.2.map _ hstep.many.1.unambiguous

end Form

namespace Grammar

/-- A whole script, whatever stands behind it. -/
def body : Production Script := do
  let position ← required (keyword .issue 0)
  let issue ← required value
  let markers ← markers 0
  let before ← hooksOf mainStep .before 0
  let after ← hooksOf mainStep .after 0
  let _ ← required (keyword .steps 0)
  let first ← required (mainStep 1)
  let others ← many (mainStep 1)
  return { issue := ⟨issue.1, issue.2⟩, markers, before, after, steps := first :: others, position }

/-- Nothing stands behind a script. -/
def atEnd (s : Script) : Production Script := do
  unless (← get).rest.isEmpty do unexpected
  return s

theorem script_eq : script = body >>= atEnd := by
  unfold script body atEnd
  simp only [bind_assoc, pure_bind]

end Grammar

namespace Form

/-- The body of a script is read as its form says, and no list of tokens is a script in two
ways. -/
theorem unambiguous_script_and_reads_body :
    script.Unambiguous ∧ script.Reads Grammar.body := by
  have hclauses := fun (position : Position) (issue : String × Position) =>
    (clauses_markers 0).bind (by simp) fun markers =>
    (clauses_hooks .before 0 (steps_mainStep 1)).bind (by simp) fun before =>
    (clauses_hooks .after 0 (steps_mainStep 1)).bind (by simp) fun after =>
    clauses_steps (g := fun steps =>
      ({ issue := ⟨issue.1, issue.2⟩, markers, before, after, steps, position } : Script))
  have hissue := fun position : Position =>
    (typed_value 0).bind (fun issue => (hclauses position issue).typed) (by simp)
      (Set.subset_univ _) (fun _ => Set.subset_univ _) (fun _ => Set.subset_univ _)
      (Set.subset_univ _)
  constructor
  · exact (typed_keyword.bind hissue (by simp) (Set.subset_univ _) (fun _ => Set.subset_univ _)
      (fun _ => Set.subset_univ _) (Set.subset_univ _)).unambiguous
  · refine Reads.bind typed_keyword hissue (by simp)
      (reads_keyword.required not_spells_token typed_keyword.viable) fun position => ?_
    exact Reads.bind (typed_value 0) (fun issue => (hclauses position issue).typed) (by simp)
      reads_required_value fun issue => (hclauses position issue).reads

theorem unambiguous_script : script.Unambiguous :=
  unambiguous_script_and_reads_body.1

theorem reads_body : script.Reads Grammar.body :=
  unambiguous_script_and_reads_body.2

end Form
end TestScript.Script
