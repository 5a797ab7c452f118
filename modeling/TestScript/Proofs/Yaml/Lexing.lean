import TestScript.Proofs.Yaml.Candidates
import TestScript.Yaml.Token.Scan

/-!
# Computations that keep the marks

The state of reading tokens is kept step by step: what has been read is marked, the candidates for
keys have their places, and the cursor follows the text. `Leads` says what a computation leads to if
it ends without a fault, and `Keeps` that it keeps the state that it starts from.
-/

namespace TestScript.Yaml

variable {origin c c' : Cursor}

namespace Lex

variable {α β : Type} {s : Lexer} {x : Lex α} {f : α → Lex β}

/-! ## What a computation leads to -/

/-- If a computation ends without a fault, then `Q` holds of its result and of the state that it
leaves. -/
def Leads (x : Lex α) (s : Lexer) (Q : α → Lexer → Prop) : Prop :=
  Yields (x.run s) fun r => Q r.1 r.2

variable {P : α → Lexer → Prop} {Q : β → Lexer → Prop}

theorem leads_pure {b : β} (h : Q b s) : (pure b : Lex β).Leads s Q :=
  yields_pure h

theorem leads_failAt {cause : Cause} {p : Position} : (failAt cause p : Lex β).Leads s Q :=
  yields_throw

theorem leads_fail {cause : Cause} : (fail cause : Lex β).Leads s Q :=
  yields_throw

theorem Leads.bind (hx : x.Leads s P) (hf : ∀ a s', P a s' → (f a).Leads s' Q) :
    (x >>= f).Leads s Q := by
  rw [Leads, StateT.run_bind]
  exact Yields.bind hx fun r hr => hf r.1 r.2 hr

theorem Leads.mono {P' : α → Lexer → Prop} (hx : x.Leads s P) (h : ∀ a s', P a s' → P' a s') :
    x.Leads s P' :=
  Yields.mono hx fun r hr => h r.1 r.2 hr

theorem leads_ite {b : Prop} [Decidable b] {y z : Lex β} (hy : b → y.Leads s Q)
    (hz : ¬ b → z.Leads s Q) : (if b then y else z).Leads s Q := by
  split
  · next h => exact hy h
  · next h => exact hz h

theorem leads_fail_bind {cause : Cause} : (fail cause >>= f).Leads s Q :=
  leads_fail.bind (P := fun _ _ => False) fun _ _ h => h.elim

theorem leads_failAt_bind {cause : Cause} {p : Position} : (failAt cause p >>= f).Leads s Q :=
  leads_failAt.bind (P := fun _ _ => False) fun _ _ h => h.elim

theorem leads_lift_bind {e : Except Fault α} {P : α → Prop} (he : Yields e P)
    (hf : ∀ a, P a → (f a).Leads s Q) : ((liftM e : Lex α) >>= f).Leads s Q := by
  cases e with
  | error fault => rintro _ ⟨⟩
  | ok a => exact hf a (he a rfl)

/-- A computation is made only sometimes, with more behind it that is shared with the other case. -/
theorem leads_ite_bind {b : Prop} [Decidable b] {x : Lex Unit} {f : Unit → Lex β} {y : Lex β}
    {P : Unit → Lexer → Prop} (hx : b → x.Leads s P) (hf : ∀ s', P () s' → (f ()).Leads s' Q)
    (hy : ¬ b → (∀ s', P () s' → (f ()).Leads s' Q) → y.Leads s Q) :
    (if b then x >>= f else y).Leads s Q :=
  leads_ite (fun hb => (hx hb).bind fun _ s' h => hf s' h) fun hb => hy hb hf

/-- A computation is made only sometimes, with more behind it. -/
theorem leads_when {b : Prop} [Decidable b] {x : Lex Unit} {f : Unit → Lex β}
    {P : Unit → Lexer → Prop} (hx : b → x.Leads s P) (hskip : ¬ b → P () s)
    (hf : ∀ s', P () s' → (f ()).Leads s' Q) : (if b then x >>= f else f ()).Leads s Q :=
  leads_ite_bind hx hf fun hb hf => hf s (hskip hb)

/-- What is checked sometimes in front of a computation makes no difference to where that leads. -/
theorem leads_ite_of_else {b : Prop} [Decidable b] {y z : Lex β} (hz : z.Leads s Q)
    (hy : z.Leads s Q → y.Leads s Q) : (if b then y else z).Leads s Q :=
  leads_ite (fun _ => hy hz) fun _ => hz

theorem leads_get_bind {f : Lexer → Lex β} (h : (f s).Leads s Q) : (get >>= f).Leads s Q :=
  h

theorem leads_inFlow_bind {f : Bool → Lex β} (h : (f (!s.outer.isEmpty)).Leads s Q) :
    (inFlow >>= f).Leads s Q :=
  h

theorem leads_cursor_bind {f : Cursor → Lex β} (hs : s.cursor = c) (h : (f c).Leads s Q) :
    (cursor >>= f).Leads s Q := by
  obtain rfl := hs
  exact h

theorem leads_modify {g : Lexer → Lexer} {Q : Unit → Lexer → Prop} (h : Q () (g s)) :
    (modify g : Lex Unit).Leads s Q :=
  yields_pure h

theorem leads_set {s' : Lexer} {Q : Unit → Lexer → Prop} (h : Q () s') :
    (set s' : Lex Unit).Leads s Q :=
  yields_pure h

/-! ## What keeps the marks -/

variable {b q : Position} {stage : Lexer.Stage}

/-- A computation leaves the cursor where it is, and all that has been read is marked then if it was
marked before. -/
def Keeps (origin c : Cursor) (b : Position) (stage : Lexer.Stage) (x : Lex α) : Prop :=
  ∀ s : Lexer, s.Awaits origin c b stage → x.Leads s fun _ => Lexer.Awaits origin c b stage

theorem Keeps.bind {x : Lex α} {f : α → Lex β} {Q : β → Lexer → Prop}
    (hx : x.Keeps origin c b stage) {s : Lexer} (hs : s.Awaits origin c b stage)
    (hf : ∀ a s', s'.Awaits origin c b stage → (f a).Leads s' Q) : (x >>= f).Leads s Q :=
  (hx s hs).bind hf

theorem keeps_modify {g : Lexer → Lexer}
    (h : ∀ s, s.Awaits origin c b stage → (g s).Awaits origin c b stage) :
    (modify g : Lex Unit).Keeps origin c b stage :=
  fun s hs => leads_modify (h s hs)

theorem keeps_allowKey {allowed : Bool} : (allowKey allowed).Keeps origin c b stage :=
  keeps_modify fun _ hs => { hs with }

theorem keeps_nudge : nudge.Keeps origin c b stage :=
  fun _ hs => leads_inFlow_bind <|
    leads_ite (fun _ => leads_pure hs) fun _ => leads_modify { hs with }

/-- Where all keys have begun, any token can be read. -/
theorem push_leads {s : Lexer} {kind : Token.Kind} (hs : s.Awaits origin c b stage)
    (hstage : stage ≠ .bare) (ht : Token.IsPlaced origin c b ⟨q, kind⟩) :
    (push q kind).Leads s fun _ => Lexer.Awaits origin c q stage :=
  leads_modify <| hs.extend stage rfl Array.toList_push ht.ge
    (List.forall_mem_singleton.2 ⟨rfl, ht.marked, ht.opening⟩) (absurd · hstage)

theorem keeps_push {kind : Token.Kind} (hstage : stage ≠ .bare)
    (ht : Token.IsPlaced origin c b ⟨b, kind⟩) : (push b kind).Keeps origin c b stage :=
  fun _ hs => push_leads hs hstage ht

/-- The last token of a reading is read. -/
theorem pushLast_leads {s : Lexer} {kind : Token.Kind} (hs : s.Awaits origin c b .begun)
    (ht : Token.IsPlaced origin c b ⟨q, kind⟩) :
    (push q kind).Leads s fun _ => Lexer.Marked origin c :=
  (push_leads hs nofun ht).mono fun _ _ hs' => hs'.marked ht.le

/-- A token is read that begins a key. -/
theorem pushKey_leads {s : Lexer} {kind : Token.Kind} (hs : s.Awaits origin c b .bare)
    (ht : Token.IsPlaced origin c b ⟨q, kind⟩) (hkey : BeginsKey origin [⟨q, kind⟩])
    (hfirst : c.rest ≠ [] → Introduced origin b ∨ kind.beginsNode ∧ q ≤ b) :
    (push q kind).Leads s fun _ => Lexer.Marked origin c := by
  have hextend := hs.extend .begun rfl Array.toList_push ht.ge
    (List.forall_mem_singleton.2 ⟨rfl, ht.marked, ht.opening⟩) fun _ =>
      ⟨List.cons_ne_nil _ _, fun t ht => by cases ht; exact hfirst, .inl hkey⟩
  exact leads_modify (hextend.marked ht.le)

/-- A property of a node is read. -/
theorem pushProperty_leads {s : Lexer} {kind : Token.Kind} (hs : s.Reads origin c b)
    (ht : Token.IsPlaced origin c b ⟨b, kind⟩) (hkind : kind.isProperty)
    (hb : Introduced origin b) : (push b kind).Leads s fun _ => Lexer.Marked origin c := by
  have htokens : (s.tokens.push ⟨b, kind⟩).toList = s.tokens.toList ++ [⟨b, kind⟩] :=
    Array.toList_push
  have hextend := hs.awaits.extend .bare rfl htokens ht.ge
    (List.forall_mem_singleton.2 ⟨rfl, ht.marked, ht.opening⟩) fun _ =>
      ⟨List.cons_ne_nil _ _, fun _ _ _ => .inl hb, .inr ⟨rfl, List.forall_mem_singleton.2
        ⟨hkind, hb.indicated⟩⟩⟩
  have hreads : { s with tokens := s.tokens.push ⟨b, kind⟩ }.Reads origin c b :=
    { awaits := hextend
      outer := fun k hk => htokens ▸ (hs.outer k hk).append _
      room := fun k hk => htokens ▸ (hs.room k hk).imp_left (·.append _) }
  refine leads_modify (hreads.marked ht.le fun k hk => ?_)
  have hfits := hs.awaits.fits k (Lexer.mem_candidates hk)
  show (s.tokens.push ⟨b, kind⟩).toList.drop k.number ≠ []
  rw [htokens, List.drop_append_of_le_length hfits.number_le]
  exact List.append_ne_nil_of_right_ne_nil _ (List.cons_ne_nil _ _)

theorem keeps_roll {column : Nat} {add : Lex Unit} (h : add.Keeps origin c b stage) :
    (roll column add).Keeps origin c b stage := by
  intro s hs
  rw [roll]
  refine leads_inFlow_bind (leads_ite (fun _ => leads_pure hs) fun _ => ?_)
  refine leads_get_bind ?_
  refine (leads_modify (Q := fun _ => Lexer.Awaits origin c b stage) { hs with }).bind
    fun _ s' hs' => ?_
  exact leads_ite (fun _ => h s' hs') fun _ => leads_pure hs'

theorem keeps_unroll {column : Int} (hstage : stage ≠ .bare) :
    (unroll column).Keeps origin c c.position stage := by
  intro s hs
  rw [unroll]
  refine leads_inFlow_bind (leads_ite (fun _ => leads_pure hs) fun _ => ?_)
  exact leads_modify { hs.close hstage (Position.le_refl _) _ with }

/-- In front of a reading the collections right of it are closed. If only properties have been read
of the last key, then there are none. -/
theorem unroll_leads {s : Lexer} (hs : s.Marked origin c)
    (hstale : s.outer = [] → ∀ k ∈ s.candidate, k.position.column ≤ c.column) :
    (unroll c.column).Leads s fun _ s' => s'.Marked origin c ∧
      (s'.outer = [] → s'.indentation.Clears c.column) := by
  rw [unroll]
  refine leads_inFlow_bind (leads_ite (fun hflow => ?_) fun hflow => ?_)
  · refine leads_pure ⟨hs, fun hnil => ?_⟩
    rw [hnil] at hflow
    cases hflow
  have houter : s.outer = [] := by simpa using hflow
  refine leads_modify ⟨?_, fun _ => Indentation.unroll_clears _ _⟩
  by_cases hbegun : ∀ k ∈ s.candidate, k.HasBegun origin s.tokens.toList
  · have hclose := (hs.awaits_begun hbegun).close nofun (Position.le_refl _)
      (s.indentation.unroll c.column).1
    exact Lexer.Awaits.marked { hclose with } (Position.le_refl _)
  · obtain ⟨k, hk, hnot⟩ : ∃ k ∈ s.candidate, ¬ k.HasBegun origin s.tokens.toList := by
      simpa using hbegun
    have hclears := ((hs.room k hk).resolve_left hnot houter).unroll_eq
      (Int.ofNat_le.2 (hstale houter k hk))
    rw [hclears]
    exact { hs with }

theorem dropCandidate_leads {s : Lexer} (hs : s.Awaits origin c b .outer) :
    dropCandidate.Leads s fun _ => Lexer.Awaits origin c b .begun := by
  have hdrop : (modify fun s => { s with candidate := none } : Lex Unit).Leads s
      fun _ => Lexer.Awaits origin c b .begun :=
    leads_modify (hs.forget (List.Sublist.refl _) (.inl nofun))
  rw [dropCandidate]
  refine leads_get_bind ?_
  dsimp only
  split
  · exact leads_ite (fun _ => leads_fail_bind) fun _ => hdrop
  · exact hdrop

/-- Outside of flow collections a candidate is left only on the line of the cursor. -/
theorem dropStale_leads {s : Lexer} (hs : s.MarkedButStale origin c) :
    dropStale.Leads s fun _ s' => s'.Marked origin c ∧ s'.tokens = s.tokens ∧
      (s'.outer = [] → ∀ k ∈ s'.candidate, c.line ≤ k.position.line) := by
  rw [dropStale]
  refine leads_get_bind ?_
  rcases hs with hs | ⟨houter, hs, hstale⟩
  · refine leads_ite (fun _ => ?_) fun hflow => leads_pure ⟨hs, rfl, fun hnil => ?_⟩
    · split
      · next k hk =>
        refine leads_ite (fun _ => ?_) fun hfresh => leads_pure ⟨hs, rfl, fun _ k' hk' => ?_⟩
        · refine leads_ite (fun _ => leads_fail_bind) fun _ => leads_set ⟨hs.forget, rfl, ?_⟩
          exact fun _ => nofun
        · obtain rfl : k = k' := Option.some.inj (hk.symm.trans hk')
          rw [isStale, hs.awaits.cursor] at hfresh
          simp at hfresh
          exact hfresh.1
      · next hnone => exact leads_pure ⟨hs, rfl, fun _ k hk => by rw [hnone] at hk; cases hk⟩
    · rw [hnil] at hflow
      exact absurd rfl hflow
  · rw [if_pos (by rw [houter]; rfl)]
    split
    · next k hk =>
      have hline : k.position.line < s.cursor.line := hs.awaits.cursor.symm ▸ hstale k hk
      rw [if_pos (by rw [isStale, decide_eq_true hline]; rfl)]
      exact leads_ite (fun _ => leads_fail_bind) fun _ => leads_set ⟨hs, rfl, fun _ => nofun⟩
    · next hnone =>
      rw [← hnone] at hs
      exact leads_pure ⟨hs, rfl, fun _ k hk => by rw [hnone] at hk; cases hk⟩

/-- The next token may have become a candidate. -/
theorem saveCandidate_leads {s : Lexer} (hs : s.Marked origin c)
    (hroom : s.outer = [] → s.indentation.Clears c.column) :
    saveCandidate.Leads s fun _ s' => s'.Reads origin c c.position ∧ s'.outer = s.outer := by
  refine leads_modify ?_
  split
  · obtain rfl := hs.awaits.cursor
    exact ⟨hs.save rfl rfl hroom, rfl⟩
  · exact ⟨hs.toReads, rfl⟩

/-! ## Going on -/

theorem goTo_leads {s : Lexer} (hs : s.Awaits origin c b stage) (hc : c'.IsBehind c) :
    (goTo c').Leads s fun _ => Lexer.Awaits origin c' b stage :=
  leads_modify (hs.move hc)

theorem advance_leads {s : Lexer} {n : Nat} (hs : s.Awaits origin c b stage) :
    (advance n).Leads s fun _ => Lexer.Awaits origin (c.advance n) b stage := by
  obtain rfl := hs.cursor
  exact leads_modify (hs.move (s.cursor.isBehind_advance n))

/-- Only the cursor goes on. -/
theorem skipTrailing_leads {s : Lexer} :
    skipTrailing.Leads s fun _ s' => ∃ c', s' = { s with cursor := c' } ∧ c'.Trails s.cursor := by
  rw [skipTrailing]
  refine leads_cursor_bind rfl (leads_lift_bind s.cursor.skipTrailing_trails ?_)
  rintro ⟨_, _, c'⟩ h
  refine (leads_modify (Q := fun _ s' => s' = { s with cursor := c' }) rfl).bind ?_
  exact fun _ s' hs' => leads_pure ⟨c', hs', h⟩

/-- The gap ends in front of what is neither a blank nor the end of a line nor a comment. -/
theorem gap_yields {indentation : Indentation} {bound : List Char} {ended : Bool}
    (hbound : c.rest.length ≤ bound.length) :
    Yields (gap indentation bound c ended) fun r => r.1.Agrees c ∧ isBlank r.1.next = false ∧
      isBreak r.1.next = false ∧ r.1.next ≠ '#' := by
  induction bound generalizing c ended with
  | nil =>
    have hnext : c.next = '\x00' := by
      rw [Cursor.next, Cursor.look, List.length_eq_zero_iff.1 (Nat.le_zero.1 hbound)]
      rfl
    exact yields_pure ⟨c.agrees_refl, by rw [hnext]; rfl, by rw [hnext]; rfl, by rw [hnext]; decide⟩
  | cons _ bound ih =>
    rw [List.length_cons] at hbound
    -- The rest of the gap is passed from a place behind.
    have hnext : ∀ {c' : Cursor} {ended' : Bool}, c'.Agrees c → c'.rest.length < c.rest.length →
        Yields (gap indentation bound c' ended') fun r => r.1.Agrees c ∧ isBlank r.1.next = false ∧
          isBreak r.1.next = false ∧ r.1.next ≠ '#' :=
      fun h hlt => (ih (by omega)).mono fun r hr => ⟨h.trans hr.1, hr.2⟩
    rw [gap]
    refine yields_ite (fun htab => ?_) fun _ => ?_
    · simp only [Bool.and_eq_true, decide_eq_true_eq] at htab
      refine c.skipTrailing_yields.bind ?_
      rintro ⟨_, _, c'⟩ h
      have hpos := Cursor.length_takeWhile_pos (c := c) (p := isBlank) (by rw [htab.1.1.1]; decide)
        (by rw [htab.1.1.1]; rfl)
      have hlength : c'.rest.length + (c.rest.takeWhile isBlank).length ≤ c.rest.length := h.2
      exact yields_ite (fun _ => hnext h.1 (by omega)) fun _ => yields_throw
    · refine yields_ite (fun hblank => ?_) fun hblank => ?_
      · have hlineEnd := isLineEnd_of_isBlank hblank
        exact hnext (c.agrees_refl.advance_one hlineEnd).skipBlanks
          (Cursor.length_rest_advance_lt (ne_nul_of_isLineEnd hlineEnd))
      · refine yields_ite (fun hbreak => ?_) fun hbreak => ?_
        · exact hnext c.agrees_refl.newline (Cursor.length_rest_newline_lt hbreak)
        · refine yields_ite (fun hhash => ?_) fun hhash => ?_
          · exact hnext c.agrees_refl.skipLine (Cursor.length_rest_skipLine_lt (by rw [hhash]; rfl))
          · exact yields_pure ⟨c.agrees_refl, Bool.of_not_eq_true hblank,
              Bool.of_not_eq_true hbreak, hhash⟩

/-- Only the cursor goes on, and a key may be allowed. -/
theorem skipGap_leads {s : Lexer} :
    skipGap.Leads s fun _ s' => ∃ c' keyAllowed, s' = { s with cursor := c', keyAllowed } ∧
      c'.Agrees s.cursor ∧ isBlank c'.next = false ∧ isBreak c'.next = false ∧ c'.next ≠ '#' := by
  rw [skipGap]
  refine leads_get_bind (leads_lift_bind (gap_yields (Nat.le_refl _)) fun ⟨c', ended⟩ h => ?_)
  refine Leads.bind (P := fun _ s' => s' = { s with cursor := c' }) (leads_modify rfl) ?_
  rintro _ _ rfl
  refine leads_ite (fun _ => ?_) fun _ => leads_pure ⟨c', s.keyAllowed, rfl, h⟩
  exact leads_modify ⟨c', true, rfl, h⟩

end Lex
end TestScript.Yaml
