import TestScript.Proofs.Grammar.Form

/-!
# Productions that read forms

A production **reads** a form when it takes the longest beginning of a phrase that stands in
front of it, and then either gives the meaning of the phrase or fails there. Two things are
said of the place where it stops: no token that could have been next stands there, and the
terminals noted so far are those of the tokens that could have been next. What stands behind
the first token that does not fit plays no part.

Reading is compositional: a production is built like the form that it reads, and one lemma for
each way of building (`Reads.bind`, `Reads.opt`, `Reads.many`) carries reading over.
-/

namespace TestScript.Script

/-- Where the last of some tokens stands; `before` is where the token in front of them does. -/
def lastPosition (before : Position) (w : List Token) : Position :=
  (w.getLast?.map Token.position).getD before

theorem lastPosition_append (p : Position) (u v : List Token) :
    lastPosition p (u ++ v) = lastPosition (lastPosition p u) v := by
  cases h : v.getLast? <;> simp [lastPosition, List.getLast?_append, h]

variable {α β : Type}

namespace Grammar

/-- The error that nothing fits here. -/
def fault (s : Lookahead) : GrammarError :=
  match s.rest with
  | t :: _ => ⟨.unexpectedToken t.kind.describe s.refused, t.position⟩
  | [] => ⟨.unexpectedEnd s.refused, s.last⟩

theorem unexpected_eq (s : Lookahead) : (unexpected : Production α) s = .error (fault s) := by
  obtain ⟨_ | ⟨t, rest⟩, refused, last⟩ := s <;> rfl

theorem bind_of_ok {p : Production α} {f : α → Production β} {s s' : Lookahead} {a : α}
    (h : p s = .ok (a, s')) : (p >>= f) s = f a s' := by
  show Except.bind (p s) _ = _
  rw [h]
  rfl

theorem bind_of_error {p : Production α} {f : α → Production β} {s : Lookahead}
    {e : GrammarError} (h : p s = .error e) : (p >>= f) s = .error e := by
  show Except.bind (p s) _ = _
  rw [h]
  rfl

/-- Reads what stands behind something that may be missing, if that is there. -/
def andThen (p : Production (Option α)) (f : α → Production β) : Production (Option β) := do
  match ← p with
  | some a => return some (← f a)
  | none => return none

/-- Reads something else if something is missing. -/
def orElse (p q : Production (Option α)) : Production (Option α) := do
  match ← p with
  | some a => return some a
  | none => q

/-! ### What one token does -/

theorem refuse_eq (terminal : String) (s : Lookahead) :
    refuse terminal s = ⟨s.rest, (refuse terminal s).refused, s.last⟩ := by
  unfold refuse
  split <;> rfl

theorem refused_refuse (terminal : String) (s : Lookahead) (r : List Token) :
    (refuse terminal { s with rest := r }).refused = (refuse terminal s).refused := by
  unfold refuse
  split <;> simp_all

theorem mem_refused_refuse {terminal x : String} {s : Lookahead} :
    x ∈ (refuse terminal s).refused ↔ x ∈ s.refused ∨ x = terminal := by
  unfold refuse
  split
  · simp_all
  · simp

theorem nodup_refused_refuse {terminal : String} {s : Lookahead} (h : s.refused.Nodup) :
    (refuse terminal s).refused.Nodup := by
  unfold refuse
  split
  · exact h
  · next hx => exact List.nodup_append.2 ⟨h, by simp, by simp_all; grind⟩

theorem accept_of_none {terminal : String} {meaning? : Token → Option α} {s : Lookahead}
    (h : ∀ t ∈ s.rest.head?, meaning? t = none) :
    accept terminal meaning? s = .ok (none, refuse terminal s) := by
  obtain ⟨_ | ⟨t, rest⟩, refused, last⟩ := s
  · rfl
  · simp [accept, h t (by simp)]

theorem accept_of_some {terminal : String} {meaning? : Token → Option α} {t : Token}
    {rest : List Token} {refused : List String} {last : Position} {a : α}
    (h : meaning? t = some a) :
    accept terminal meaning? ⟨t :: rest, refused, last⟩ =
      .ok (some a, { rest, last := t.position }) := by
  simp [accept, h]

end Grammar

open Grammar

namespace Form

/-- The terminals noted behind `w` are those of the tokens that can be next; where nothing has
been taken, those noted before stay. -/
structure Notes (F : Form α) (w : List Token) (before after : List String) : Prop where
  nodup : before.Nodup → after.Nodup
  mem_iff : ∀ x, x ∈ after ↔ (w = [] ∧ x ∈ before) ∨ ∃ t, F.Next w t ∧ t.kind.terminal = x

/-- The error of a value that is no retry count. -/
def invalidRetries (text : String) (p : Position) : GrammarError :=
  ⟨.invalidValue "flaky" text "retry count must be a non-negative integer", p⟩

/-- What a production may do behind the beginning `w` of a phrase and in front of `r`; `front`
are the tokens read before. -/
inductive Ending (F : Form α) (front w r : List Token) : Production α → Prop
  | done {a : α} (h : F.Derives w a) : Ending F front w r (pure a)
  | stuck (h : ¬ F.Spells w) : Ending F front w r unexpected
  | invalid {k t : Token} {text : String} (h : ¬ F.Spells w)
      (hk : (front ++ w).getLast? = some k) (hflaky : k.kind = .keyword .flaky)
      (ht : r.head? = some t) (htext : t.kind = .value text) :
      Ending F front w r (throw (invalidRetries text t.position))

/-- A production takes `w` and stops in front of `r`. -/
structure StopsAt (F : Form α) (p : Production α) (front : List Token) (s : Lookahead)
    (w r : List Token) (refused : List String) (ending : Production α) : Prop where
  rest_eq : s.rest = w ++ r
  viable : F.Viable w
  stop : ∀ t ∈ r.head?, ¬ F.Next w t
  notes : F.Notes w s.refused refused
  ends : F.Ending front w r ending
  run : ∀ r', r'.head? = r.head? →
    p { s with rest := w ++ r' } = ending ⟨r', refused, lastPosition s.last w⟩

/-- A production reads a form at a place. -/
def ReadsAt (F : Form α) (p : Production α) (front : List Token) (s : Lookahead) : Prop :=
  ∃ w r refused ending, F.StopsAt p front s w r refused ending

/-- A production reads a form wherever it stands. -/
def Reads (F : Form α) (p : Production α) : Prop :=
  ∀ front s, F.ReadsAt p front s

/-! ## Reading is about phrases only -/

section Congr

variable {F F' : Form α} (h : F.Same F')

include h

theorem spells_congr {w : List Token} : F.Spells w ↔ F'.Spells w :=
  exists_congr (h w)

theorem viable_congr {w : List Token} : F.Viable w ↔ F'.Viable w :=
  exists_congr fun _ => spells_congr h

theorem ReadsAt.congr {p : Production α} {front : List Token} {s : Lookahead}
    (hp : F.ReadsAt p front s) : F'.ReadsAt p front s := by
  obtain ⟨w, r, refused, ending, hp⟩ := hp
  have hnext : ∀ w t, F.Next w t ↔ F'.Next w t := fun _ _ => viable_congr h
  refine ⟨w, r, refused, ending, hp.rest_eq, (viable_congr h).1 hp.viable, ?_, ?_, ?_, hp.run⟩
  · exact fun t ht hn => hp.stop t ht ((hnext w t).2 hn)
  · exact ⟨hp.notes.nodup, by simpa only [hnext] using hp.notes.mem_iff⟩
  · cases hp.ends with
    | done ha => exact .done ((h w _).1 ha)
    | stuck hw => exact .stuck (mt (spells_congr h).2 hw)
    | invalid hw hk hflaky ht htext =>
      exact .invalid (mt (spells_congr h).2 hw) hk hflaky ht htext

end Congr

/-! ## Phrases in a row -/

/-- Where `F` stops behind a whole phrase, the rest is a phrase behind it or nothing is. -/
theorem spells_bind_of_derives {F : Form α} {G : α → Form β} {u v : List Token} {a : α}
    (hF : F.Unambiguous) (hsep : Separated F G) (ha : F.Derives u a)
    (hv : ∀ s ∈ v.head?, ¬ F.Next u s) : (F >>= G).Spells (u ++ v) ↔ (G a).Spells v := by
  constructor
  · intro h
    obtain ⟨b, hb⟩ := h
    obtain ⟨u', v', a', h, ha', hb'⟩ := derives_bind.1 hb
    obtain ⟨rfl, rfl⟩ := append_unique hsep ha.spells.viable hv ha' hb'.spells.viable h
    rw [hF.derives_unique ha ha']
    exact hb'.spells
  · intro h
    obtain ⟨b, hb⟩ := h
    exact ⟨b, derives_bind.2 ⟨u, v, a, rfl, ha, hb⟩⟩

theorem ReadsAt.bind {F : Form α} {G : α → Form β} {p : Production α} {f : α → Production β}
    {front : List Token} {s : Lookahead} (hF : F.Unambiguous) (hsep : Separated F G)
    (hG : ∀ a, (G a).Viable []) (hp : F.ReadsAt p front s)
    (hf : ∀ u a s', F.Derives u a → s.rest = u ++ s'.rest → (G a).ReadsAt (f a) (front ++ u) s') :
    (F >>= G).ReadsAt (p >>= f) front s := by
  obtain ⟨u, x, refused, ending, hp⟩ := hp
  cases hp.ends with
  | done ha =>
    rename_i a
    -- The second production goes on where the first one stops.
    obtain ⟨v, r, refused', ending', hq⟩ :=
      hf u a ⟨x, refused, lastPosition s.last u⟩ ha hp.rest_eq
    obtain rfl : x = v ++ r := hq.rest_eq
    have hv : ∀ t ∈ v.head?, ¬ F.Next u t := by
      intro t ht
      exact hp.stop t (by cases v <;> simp_all)
    have hnext := fun t => next_bind_of_derives (t := t) hF hsep hG ha hv
    have hspells := spells_bind_of_derives hF hsep ha hv
    refine ⟨u ++ v, r, refused', ending', by simp [hp.rest_eq], ha.viable_bind hq.viable, ?_,
      ⟨hq.notes.nodup ∘ hp.notes.nodup, ?_⟩, ?_, ?_⟩
    · intro t ht hn
      rcases (hnext t).1 hn with hn' | ⟨rfl, hn'⟩
      · exact hq.stop t ht hn'
      · exact hp.stop t (by simpa using ht) hn'
    · intro y
      -- A terminal was turned down by the second production, or by the first one if nothing has
      -- been read since.
      rw [hq.notes.mem_iff]
      simp only [hnext]
      rw [hp.notes.mem_iff]
      by_cases hvnil : v = []
      · subst hvnil
        simp only [true_and, List.append_nil]
        grind
      · simp [hvnil]
    · cases hq.ends with
      | done hb => exact .done (derives_bind.2 ⟨u, v, a, rfl, ha, hb⟩)
      | stuck hw => exact .stuck (mt hspells.1 hw)
      | invalid hw hk hflaky ht htext =>
        exact .invalid (mt hspells.1 hw) (by simpa using hk) hflaky ht htext
    · intro r' hr'
      -- The first production looks at one token only, and that is the same in front of `r'`.
      have hhead : (v ++ r').head? = (v ++ r).head? := by
        cases v <;> simp [hr']
      have hrun := hp.run (v ++ r') hhead
      rw [List.append_assoc, bind_of_ok hrun, lastPosition_append]
      exact hq.run r' hr'
  -- The first production gives up, and the second one is not tried.
  | stuck hw =>
    refine ⟨u, x, refused, unexpected, hp.rest_eq, hp.viable.bind hG, ?_, ⟨hp.notes.nodup, ?_⟩,
      .stuck (not_spells_bind hsep hp.viable hw), ?_⟩
    · intro t ht
      rw [next_bind_of_not_spells hsep hG hp.viable hw]
      exact hp.stop t ht
    · simpa only [next_bind_of_not_spells hsep hG hp.viable hw] using hp.notes.mem_iff
    · intro r' hr'
      rw [bind_of_error ((hp.run r' hr').trans (unexpected_eq _)), unexpected_eq]
  | invalid hw hk hflaky ht htext =>
    refine ⟨u, x, refused, _, hp.rest_eq, hp.viable.bind hG, ?_, ⟨hp.notes.nodup, ?_⟩,
      .invalid (not_spells_bind hsep hp.viable hw) hk hflaky ht htext, ?_⟩
    · intro t ht
      rw [next_bind_of_not_spells hsep hG hp.viable hw]
      exact hp.stop t ht
    · simpa only [next_bind_of_not_spells hsep hG hp.viable hw] using hp.notes.mem_iff
    · intro r' hr'
      rw [bind_of_error (hp.run r' hr')]
      rfl

theorem Reads.bind {F : Form α} {G : α → Form β} {p : Production α} {f : α → Production β}
    {first more first' more' : Set Token} (hF : F.Typed first more)
    (hG : ∀ a, (G a).Typed first' more') (h : Disjoint more first') (hp : F.Reads p)
    (hf : ∀ a, (G a).Reads (f a)) : (F >>= G).Reads (p >>= f) :=
  fun front s => (hp front s).bind hF.unambiguous (hF.separated hG h) (fun a => (hG a).viable)
    fun _ a s' _ _ => hf a _ s'

theorem not_next_pure {a : α} {w : List Token} {t : Token} :
    ¬ (Pure.pure a : Form α).Next w t := by
  intro h
  obtain ⟨more, b, h⟩ := h
  simp at h

theorem Reads.pure (a : α) : (Pure.pure a : Form α).Reads (Pure.pure a) := by
  intro front s
  refine ⟨[], s.rest, s.refused, Pure.pure a, rfl, ⟨[], a, by simp⟩, fun t _ => not_next_pure,
    ⟨id, ?_⟩, .done (by simp), fun r' _ => rfl⟩
  simp [not_next_pure]

/-- What a phrase means can be put in another form. -/
theorem ReadsAt.map {F : Form α} {p : Production α} {front : List Token} {s : Lookahead}
    (g : α → β) (hF : F.Unambiguous) (hp : F.ReadsAt p front s) :
    (F >>= fun a => Pure.pure (g a)).ReadsAt (p >>= fun a => Pure.pure (g a)) front s :=
  hp.bind hF (fun _ _ _ _ _ => not_next_pure) (fun a => ⟨[], g a, by simp⟩)
    fun _ a s' _ _ => Reads.pure (g a) _ s'

/-! ## One token -/

theorem next_token {means : Token → α → Prop} {w : List Token} {t : Token} :
    (token means).Next w t ↔ w = [] ∧ ∃ a, means t a := by
  constructor
  · intro h
    obtain ⟨more, a, h⟩ := h
    obtain ⟨t', ht', ha⟩ := derives_token.1 h
    cases w with
    | nil =>
      obtain ⟨rfl, -⟩ := List.cons.inj ht'
      exact ⟨rfl, a, ha⟩
    | cons x w => simp at ht'
  · intro h
    obtain ⟨rfl, a, ha⟩ := h
    exact ⟨[], a, derives_token.2 ⟨t, rfl, ha⟩⟩

theorem reads_accept {terminal : String} {meaning? : Token → Option α}
    {means : Token → α → Prop} (hmeans : ∀ t a, meaning? t = some a ↔ means t a)
    (hterminal : ∀ t a, means t a → t.kind.terminal = terminal)
    (hsome : ∃ t a, means t a) : (token means).opt.Reads (accept terminal meaning?) := by
  have hnotes : ∀ x, (∃ t, (token means).opt.Next [] t ∧ t.kind.terminal = x) ↔ x = terminal := by
    intro x
    simp only [next_opt, next_token, true_and]
    constructor
    · intro h
      obtain ⟨t, ⟨a, ha⟩, rfl⟩ := h
      exact hterminal t a ha
    · intro h
      obtain rfl := h
      obtain ⟨t, a, ha⟩ := hsome
      exact ⟨t, ⟨a, ha⟩, hterminal t a ha⟩
  intro front s
  by_cases hnone : ∀ t ∈ s.rest.head?, meaning? t = none
  · refine ⟨[], s.rest, (refuse terminal s).refused, Pure.pure none, rfl, viable_opt.2 (.inl rfl),
      ?_, ⟨nodup_refused_refuse, ?_⟩, .done (by simp), ?_⟩
    · intro t ht hn
      obtain ⟨-, a, ha⟩ := next_token.1 (next_opt.1 hn)
      have := (hmeans t a).2 ha
      simp [hnone t ht] at this
    · simp [mem_refused_refuse, hnotes]
    · intro r' hr'
      rw [List.nil_append, accept_of_none (by simpa [hr'] using hnone), refuse_eq,
        refused_refuse]
      rfl
  · obtain ⟨_ | ⟨t, rest⟩, refused, last⟩ := s
    · simp at hnone
    obtain ⟨a, ha⟩ : ∃ a, meaning? t = some a := by
      simpa [Option.ne_none_iff_exists'] using hnone
    have hmeaning := (hmeans t a).1 ha
    refine ⟨[t], rest, [], Pure.pure (some a), rfl, ?_, ?_, ⟨by simp, ?_⟩, .done ?_, ?_⟩
    · exact (next_opt (w := []).2 (next_token.2 ⟨rfl, a, hmeaning⟩))
    · simp [next_opt, next_token]
    · simp [next_opt, next_token]
    · simpa using hmeaning
    · intro r' _
      rw [List.singleton_append, accept_of_some ha]
      rfl

/-- What must stand here is read like what may be missing, but it is not empty. -/
theorem Reads.required {F : Form α} {p : Production (Option α)} (hne : ¬ F.Spells [])
    (hF : F.Viable []) (hp : F.opt.Reads p) : F.Reads (Grammar.required p) := by
  intro front s
  obtain ⟨w, r, refused, ending, hp⟩ := hp front s
  have hspells : F.Spells w → F.opt.Spells w := fun ⟨a, ha⟩ => ⟨some a, by simpa using ha⟩
  have hviable : F.Viable w := by
    rcases viable_opt.1 hp.viable with rfl | h
    · exact hF
    · exact h
  have hstop : ∀ t ∈ r.head?, ¬ F.Next w t := by
    simpa only [next_opt] using hp.stop
  have hnotes : F.Notes w s.refused refused :=
    ⟨hp.notes.nodup, by simpa only [next_opt] using hp.notes.mem_iff⟩
  cases hp.ends with
  | @done a ha =>
    cases a with
    | none =>
      obtain rfl : w = [] := by simpa using ha
      refine ⟨[], r, refused, unexpected, hp.rest_eq, hviable, hstop, hnotes, .stuck hne, ?_⟩
      intro r' hr'
      exact bind_of_ok (hp.run r' hr')
    | some a =>
      refine ⟨w, r, refused, Pure.pure a, hp.rest_eq, hviable, hstop, hnotes,
        .done (by simpa using ha), ?_⟩
      intro r' hr'
      exact bind_of_ok (hp.run r' hr')
  | stuck hw =>
    refine ⟨w, r, refused, unexpected, hp.rest_eq, hviable, hstop, hnotes,
      .stuck (mt hspells hw), ?_⟩
    intro r' hr'
    rw [unexpected_eq]
    exact bind_of_error ((hp.run r' hr').trans (unexpected_eq _))
  | invalid hw hk hflaky ht htext =>
    refine ⟨w, r, refused, _, hp.rest_eq, hviable, hstop, hnotes,
      .invalid (mt hspells hw) hk hflaky ht htext, ?_⟩
    intro r' hr'
    exact bind_of_error (hp.run r' hr')

/-! ## What may be missing -/

theorem unambiguous_opt {F : Form α} (hF : F.Unambiguous) (hne : ¬ F.Spells []) :
    F.opt.Unambiguous := by
  have hne' : ∀ d, F.tokens d ≠ [] := fun d h => hne ⟨F.meaning d, d, h, rfl⟩
  rintro (_ | d) (_ | d') h
  · rfl
  · exact absurd h.symm (hne' d')
  · exact absurd h (hne' d)
  · exact congrArg some (hF h)

/-- What may be missing is apart from what comes next if this opens apart from it, and goes on
apart from it. -/
theorem separated_opt {F : Form α} {G : Option α → Form β} {first more : Set Token}
    (hF : F.Typed first more) (hnone : ∀ t, t ∈ first → ¬ (G none).Next [] t)
    (hsome : ∀ a t, t ∈ more → ¬ (G (some a)).Next [] t) : Separated F.opt G := by
  intro u a t ha hnext hopen
  rw [next_opt] at hnext
  rcases derives_opt.1 ha with ⟨rfl, rfl⟩ | ⟨b, rfl, hb⟩
  · exact hnone t (hF.of_first t hnext) hopen
  · exact hsome b t (hF.of_more u t hb.spells hnext) hopen

/-- What stands behind a phrase, if the phrase is there. -/
def ifSome (G : α → Form β) : Option α → Form (Option β)
  | some a => do
    let b ← G a
    return some b
  | none => return none

theorem derives_opt_bind {F : Form α} {G : α → Form β} {w : List Token} {b : Option β} :
    (F.opt >>= ifSome G).Derives w b ↔ (F >>= G).opt.Derives w b := by
  have hsome : (F >>= fun a => ifSome G (some a)).Derives w b ↔
      ∃ c, (F >>= G).Derives w c ∧ b = some c := by
    rw [← derives_map]
    exact (same_bind_assoc.symm : (F >>= fun a => G a >>= fun c => pure (some c)).Same _) w b
  have hnone : (ifSome G none).Derives w b ↔ w = [] ∧ b = none := by
    rw [ifSome, derives_pure, eq_comm (b := b)]
  rw [derives_opt_bind_iff, derives_opt, hsome, hnone]
  simp only [and_comm]

/-- If a phrase is there, what stands behind it is read, too. -/
theorem Reads.andThen {F : Form α} {G : α → Form β} {p : Production (Option α)}
    {f : α → Production β} {first more first' more' : Set Token} (hF : F.Typed first more)
    (hne : ¬ F.Spells []) (hG : ∀ a, (G a).Typed first' more') (h : Disjoint more first')
    (hp : F.opt.Reads p)
    (hf : ∀ u a front s, F.Derives u a → (G a).ReadsAt (f a) (front ++ u) s) :
    (F >>= G).opt.Reads (Grammar.andThen p f) := by
  intro front s
  have hsep : Separated F.opt (ifSome G) := by
    refine separated_opt hF (fun t _ => not_next_pure) fun a t ht hopen => ?_
    rcases next_nil_bind hopen with hopen | ⟨b, -, hopen⟩
    · exact Set.disjoint_left.1 h ht ((hG a).of_first t hopen)
    · exact not_next_pure hopen
  have hviable : ∀ a, (ifSome G a).Viable [] := by
    intro a
    cases a with
    | none => exact ⟨[], none, by simp [ifSome]⟩
    | some a => exact Viable.bind (fun b => ⟨[], some b, by simp⟩) (hG a).viable
  apply ReadsAt.congr (fun w b => derives_opt_bind)
  apply ReadsAt.bind (unambiguous_opt hF.unambiguous hne) hsep hviable (hp front s)
  intro u a s' ha _
  cases a with
  | none => exact Reads.pure none _ s'
  | some a =>
    have ha' : F.Derives u a := by simpa using ha
    exact (hf u a front s' ha').map some (hG a).unambiguous

/-- Another phrase, if the first one is missing. -/
def orElse (G : Form α) : Option α → Form (Option α)
  | some a => return some a
  | none => G.opt

theorem derives_orElse {F G : Form α} {w : List Token} {b : Option α} :
    (F.opt >>= orElse G).Derives w b ↔
      (w = [] ∧ b = none) ∨ ∃ a, b = some a ∧ (F.Derives w a ∨ G.Derives w a) := by
  have hsome : (F >>= fun a => orElse G (some a)).Derives w b ↔
      ∃ a, F.Derives w a ∧ b = some a := derives_map
  have hnone : (orElse G none).Derives w b ↔ G.opt.Derives w b := Iff.rfl
  rw [derives_opt_bind_iff, hsome, hnone, derives_opt]
  constructor
  · intro h
    rcases h with (⟨rfl, rfl⟩ | ⟨a, rfl, ha⟩) | ⟨a, ha, rfl⟩
    · exact .inl ⟨rfl, rfl⟩
    · exact .inr ⟨a, rfl, .inr ha⟩
    · exact .inr ⟨a, rfl, .inl ha⟩
  · intro h
    rcases h with ⟨rfl, rfl⟩ | ⟨a, rfl, ha | ha⟩
    · exact .inl (.inl ⟨rfl, rfl⟩)
    · exact .inr ⟨a, ha, rfl⟩
    · exact .inl (.inr ⟨a, rfl, ha⟩)

theorem Reads.orElse {F G : Form α} {p q : Production (Option α)}
    {first more first' more' : Set Token} (hF : F.Typed first more) (hne : ¬ F.Spells [])
    (hG : G.opt.Typed first' more') (h : Disjoint first first') (hp : F.opt.Reads p)
    (hq : G.opt.Reads q) : (F.opt >>= Form.orElse G).Reads (Grammar.orElse p q) := by
  intro front s
  have hsep : Separated F.opt (Form.orElse G) :=
    separated_opt hF (fun t ht hopen => Set.disjoint_left.1 h ht (hG.of_first t hopen))
      fun _ _ _ => not_next_pure
  refine ReadsAt.bind (unambiguous_opt hF.unambiguous hne) hsep ?_ (hp front s) ?_
  · intro a
    cases a with
    | none => exact hG.viable
    | some a => exact ⟨[], some a, by simp [Form.orElse]⟩
  · intro u a s' _ _
    cases a with
    | none => exact hq _ s'
    | some a => exact Reads.pure (some a) _ s'

/-! ## Repetition -/

section Many

variable {F : Form α} {p : Production (Option α)}

/-- A production that finds something takes a token. -/
theorem Reads.length_lt (hne : ¬ F.Spells []) (hp : F.opt.Reads p) {s s' : Lookahead} {a : α}
    (h : p s = .ok (some a, s')) : s'.rest.length < s.rest.length := by
  obtain ⟨w, r, refused, ending, hs⟩ := hp [] s
  have hrun := hs.run r rfl
  rw [← hs.rest_eq, h] at hrun
  cases hs.ends with
  | @done b hb =>
    cases hrun
    have hw : w ≠ [] := by
      intro h
      obtain rfl := h
      exact hne ⟨a, by simpa using hb⟩
    simp [hs.rest_eq, List.length_pos_iff.2 hw]
  | stuck =>
    rw [unexpected_eq] at hrun
    cases hrun
  | invalid => cases hrun

/-- At the end of the tokens what may be missing is missing. -/
theorem Reads.none_of_nil (hne : ¬ F.Spells []) (hp : F.opt.Reads p) {s : Lookahead}
    (h : s.rest = []) : ∃ s', p s = .ok (none, s') := by
  obtain ⟨w, r, refused, ending, hs⟩ := hp [] s
  obtain ⟨rfl, rfl⟩ : w = [] ∧ r = [] := List.append_eq_nil_iff.1 (hs.rest_eq.symm.trans h)
  have hrun := hs.run [] rfl
  rw [← hs.rest_eq] at hrun
  have hspells : F.opt.Spells [] := ⟨none, by simp⟩
  cases hs.ends with
  | @done b hb =>
    rcases derives_opt.1 hb with ⟨-, rfl⟩ | ⟨c, -, hc⟩
    · exact ⟨_, hrun⟩
    · exact absurd hc.spells hne
  | stuck hw => exact absurd hspells hw
  | invalid hw => exact absurd hspells hw

/-- A bound that is long enough does not matter. -/
theorem manyUpTo_congr (hne : ¬ F.Spells []) (hp : F.opt.Reads p) (bound bound' : List Token)
    (s : Lookahead) (h : s.rest.length ≤ bound.length) (h' : s.rest.length ≤ bound'.length) :
    manyUpTo p bound s = manyUpTo p bound' s := by
  induction bound generalizing bound' s with
  | nil =>
    obtain ⟨s', hs'⟩ := hp.none_of_nil hne (s := s) (by simpa using h)
    cases bound' with
    | nil => rfl
    | cons t bound' =>
      rw [manyUpTo, manyUpTo, bind_of_ok hs', bind_of_ok hs']
      rfl
  | cons t bound ih =>
    cases bound' with
    | nil =>
      obtain ⟨s', hs'⟩ := hp.none_of_nil hne (s := s) (by simpa using h')
      rw [manyUpTo, manyUpTo, bind_of_ok hs', bind_of_ok hs']
      rfl
    | cons t' bound' =>
      rw [manyUpTo, manyUpTo]
      cases hs : p s with
      | error e => rw [bind_of_error hs, bind_of_error hs]
      | ok x =>
        obtain ⟨_ | a, s'⟩ := x
        · rw [bind_of_ok hs, bind_of_ok hs]
        · have hlt := hp.length_lt hne hs
          have hrest := ih bound' s' (by simp_all; omega) (by simp_all; omega)
          rw [bind_of_ok hs, bind_of_ok hs]
          show Except.bind (manyUpTo p bound s') _ = Except.bind (manyUpTo p bound' s') _
          rw [hrest]

/-- Reading again and again is reading once and then again and again. -/
theorem many_eq (hne : ¬ F.Spells []) (hp : F.opt.Reads p) :
    Grammar.many p = (do
      match ← p with
      | some a =>
        let as ← Grammar.many p
        return a :: as
      | none => return []) := by
  funext s
  have hbound : Grammar.many p s = manyUpTo p (⟨.value "", {}, 0⟩ :: s.rest) s :=
    manyUpTo_congr hne hp _ _ s le_rfl (by simp)
  rw [hbound, manyUpTo]
  cases hs : p s with
  | error e => rw [bind_of_error hs, bind_of_error hs]
  | ok x =>
    obtain ⟨_ | a, s'⟩ := x
    · rw [bind_of_ok hs, bind_of_ok hs]
    · have hlt := hp.length_lt hne hs
      have hrest : manyUpTo p s.rest s' = Grammar.many p s' :=
        manyUpTo_congr hne hp _ _ s' (by omega) (by simp)
      rw [bind_of_ok hs, bind_of_ok hs]
      show Except.bind (manyUpTo p s.rest s') _ = Except.bind (Grammar.many p s') _
      rw [hrest]

theorem Reads.many {first more : Set Token} (hF : F.Typed first more) (hne : ¬ F.Spells [])
    (h : Disjoint more first) (hp : F.opt.Reads p) : F.many.Reads (Grammar.many p) := by
  have hmany := hF.many hne h
  have hsep : Separated F.opt F.others := by
    refine separated_opt hF (fun t _ => not_next_pure) fun a t ht hopen => ?_
    rcases next_nil_bind hopen with hopen | ⟨as, -, hopen⟩
    · exact Set.disjoint_left.1 h ht (hmany.of_first t hopen)
    · exact not_next_pure hopen
  have hviable : ∀ a, (F.others a).Viable [] := by
    intro a
    cases a with
    | none => exact ⟨[], [], by simp [others]⟩
    | some a => exact Viable.bind (fun as => ⟨[], a :: as, by simp⟩) hmany.viable
  intro front s
  induction hn : s.rest.length using Nat.strongRecOn generalizing front s with
  | ind n ih =>
    rw [many_eq hne hp]
    apply ReadsAt.congr (fun w as => derives_many.symm)
    apply ReadsAt.bind (unambiguous_opt hF.unambiguous hne) hsep hviable (hp front s)
    intro u a s' ha hrest
    cases a with
    | none => exact Reads.pure [] _ s'
    | some a =>
      have hu : u ≠ [] := by
        intro h
        subst h
        exact hne ⟨a, by simpa using ha⟩
      -- The phrase takes a token, so what is left is shorter.
      have hlen : s'.rest.length < n := by
        have := List.length_pos_iff.2 hu
        simp only [← hn, hrest, List.length_append]
        omega
      exact (ih _ hlen (front ++ u) s' rfl).map (a :: ·) hmany.unambiguous

end Many

end Form
end TestScript.Script
