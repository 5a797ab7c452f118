import TestScript.Proofs.Yaml.Lexing

/-!
# What each reading leaves

From a place with a character each reading of tokens takes that character, and it leaves all tokens
marked. So the fuel lasts until the text ends, and every token of a text is marked where it stands,
and behind those that may begin a mapping stand their keys (`TokenStream.isMarked_ofText`).
-/

namespace TestScript.Yaml

variable {origin c c' : Cursor} {s : Lexer}

/-- What a reading that begins at a cursor leaves: all that has been read is marked, and some of the
text has been taken, or all of it. -/
def Lexer.Proceeds (origin c : Cursor) (s : Lexer) : Prop :=
  ∃ c', s.MarkedButStale origin c' ∧ c'.Follows origin ∧
    (s.ended?.isSome ∨ c'.rest.length < c.rest.length)

/-- A reading has taken the character that it began at. -/
theorem proceeds_of_follows (hs : s.MarkedButStale origin c') (hc : c.Agrees origin)
    (hnext : isLineEnd c.next = false) (h : c'.Follows (c.advance 1)) : s.Proceeds origin c := by
  refine ⟨c', hs, (hc.advance_one hnext).trans_follows h, .inr ?_⟩
  exact Nat.lt_of_le_of_lt h.length_le (Cursor.length_rest_advance_lt (ne_nul_of_isLineEnd hnext))

/-- Behind the character that a reading begins at. -/
theorem isBehind_of_follows (h : c'.Follows (c.advance 1)) : c'.IsBehind c :=
  (c.isBehind_advance 1).trans h.isBehind

/-- A token that is marked where its reading begins. -/
theorem isPlaced_of_follows {kind : Token.Kind} (h : c'.Follows (c.advance 1))
    (hkind : Token.IsMarked origin ⟨c.position, kind⟩)
    (hopening : Token.IsOpening origin ⟨c.position, kind⟩ []) :
    Token.IsPlaced origin c' c.position ⟨c.position, kind⟩ :=
  ⟨hkind, Position.le_refl _, (isBehind_of_follows h).le, hopening⟩

namespace Lex

/-! ## Documents -/

theorem documentMarker_leads {kind : Token.Kind} (hs : s.Marked origin c)
    (hkind : Token.IsPlaced origin c c.position ⟨c.position, kind⟩) :
    (documentMarker kind).Leads s fun _ => Lexer.Marked origin (c.advance 3) := by
  rw [documentMarker]
  refine (keeps_unroll (by simp)).bind hs.awaits_outer fun _ s₁ hs₁ => ?_
  refine (dropCandidate_leads hs₁).bind fun _ s₂ hs₂ => ?_
  refine keeps_allowKey.bind hs₂ fun _ s₃ hs₃ => leads_cursor_bind hs₃.cursor ?_
  refine (keeps_push (by simp) hkind).bind hs₃ fun _ s₄ hs₄ => ?_
  exact (advance_leads hs₄).mono fun _ s₅ hs₅ => hs₅.marked (c.isBehind_advance 3).le

section Content

variable (hs : s.Marked origin c) (hc : c.Agrees origin) (hnext : isLineEnd c.next = false)
include hs hc hnext

theorem directive_leads : directive.Leads s fun _ => Lexer.Proceeds origin c := by
  rw [directive]
  refine (keeps_unroll (by simp)).bind hs.awaits_outer fun _ s₁ hs₁ => ?_
  refine (dropCandidate_leads hs₁).bind fun _ s₂ hs₂ => ?_
  refine keeps_allowKey.bind hs₂ fun _ s₃ hs₃ => leads_cursor_bind hs₃.cursor ?_
  refine leads_lift_bind (Property.directive_yields c) fun ⟨kind, c'⟩ ⟨hagrees, hdirective⟩ => ?_
  have h : c'.Follows (c.advance 1) := Cursor.Agrees.follows hagrees
  refine (goTo_leads hs₃ (isBehind_of_follows h)).bind fun _ s₄ hs₄ => ?_
  have hkind : Token.IsPlaced origin c' c.position ⟨c.position, kind⟩ := by
    rcases hdirective with rfl | ⟨handle, rfl⟩ | rfl <;> exact isPlaced_of_follows h trivial trivial
  exact (pushLast_leads hs₄ hkind).mono fun _ s₅ hs₅ => proceeds_of_follows (.inl hs₅) hc hnext h

end Content

/-- A document marker stands on one line. -/
theorem agrees_advance_marker {sign : Char} (hsign : isLineEnd sign = false)
    (h : c.atMarker sign = true) : (c.advance 3).Agrees (c.advance 1) := by
  simp only [Cursor.atMarker, Bool.and_eq_true, decide_eq_true_eq] at h
  refine c.advance_agrees (n := 2) fun k hk => ?_
  obtain rfl | rfl : k = 0 ∨ k = 1 := by omega
  · rw [h.1.1.2, hsign]
  · rw [h.1.2, hsign]

theorem documentEnd_leads (hs : s.Marked origin c) (hc : c.Agrees origin)
    (hmarker : c.atMarker '.' = true) : documentEnd.Leads s fun _ => Lexer.Proceeds origin c := by
  have hnext : isLineEnd c.next = false := by
    simp only [Cursor.atMarker, Bool.and_eq_true, decide_eq_true_eq] at hmarker
    rw [hmarker.1.1.1.2]
    rfl
  have hkind : Token.IsPlaced origin c c.position ⟨c.position, .documentEnd⟩ :=
    ⟨trivial, Position.le_refl _, Position.le_refl _, trivial⟩
  rw [documentEnd]
  refine (documentMarker_leads hs hkind).bind fun _ s₁ hs₁ => ?_
  refine skipTrailing_leads.bind fun _ s₂ ⟨c', hs₂, h⟩ => ?_
  subst hs₂
  rw [hs₁.awaits.cursor] at h
  have hs₂ := hs₁.move h.agrees.isBehind
  refine leads_cursor_bind hs₂.awaits.cursor ?_
  refine leads_ite (fun _ => leads_pure ?_) fun _ => leads_fail
  exact proceeds_of_follows (.inl hs₂) hc hnext
    ((agrees_advance_marker rfl hmarker).trans h.agrees).follows

/-! ## Flow collections -/

theorem keeps_endPair : endPair.Keeps origin c c.position .begun := by
  intro s hs
  have hkind : Token.IsPlaced origin c c.position ⟨c.position, .flowMappingEnd⟩ :=
    ⟨trivial, Position.le_refl _, Position.le_refl _, trivial⟩
  rw [endPair]
  refine leads_get_bind (leads_ite (fun _ => ?_) fun _ => leads_pure hs)
  refine Leads.bind (P := fun _ => Lexer.Awaits origin c c.position .begun) (leads_set { hs with })
    fun _ s' hs' => ?_
  rw [hs.cursor]
  exact keeps_push (by simp) hkind s' hs'

section Content

variable (hs : s.Marked origin c) (hc : c.Agrees origin) (hnext : isLineEnd c.next = false)
include hs hc hnext

theorem flowStart_leads {kind : Token.Kind} (hroom : s.outer = [] → s.indentation.Clears c.column)
    (hkind : Token.IsMarked origin ⟨c.position, kind⟩)
    (hopening : Token.IsOpening origin ⟨c.position, kind⟩ []) (hbegins : kind.beginsNode)
    (hcontent : kind.isContent) : (flowStart kind).Leads s fun _ => Lexer.Proceeds origin c := by
  rw [flowStart]
  refine (saveCandidate_leads hs hroom).bind fun _ s₁ ⟨hs₁, _⟩ => ?_
  refine keeps_nudge.bind hs₁.awaits fun _ s₂ hs₂ => leads_get_bind ?_
  dsimp only
  refine leads_ite (fun _ => leads_fail_bind) fun _ => ?_
  refine Leads.bind (P := fun _ => Lexer.Awaits origin c c.position .bare)
    (leads_set (hs₂.forget (List.Sublist.refl _) (.inr rfl))) fun _ s₃ hs₃ => ?_
  refine keeps_allowKey.bind hs₃ fun _ s₄ hs₄ => (advance_leads hs₄).bind fun _ s₅ hs₅ => ?_
  refine leads_when (P := fun _ => Lexer.Awaits origin (c.advance 1) c.position .bare)
    (fun _ => leads_modify { hs₅ with }) (fun _ => hs₅) fun s₆ hs₆ => ?_
  refine skipTrailing_leads.bind fun _ s₇ ⟨c', hs₇, h⟩ => ?_
  subst hs₇
  rw [hs₆.cursor] at h
  rw [hs₂.cursor]
  refine (pushKey_leads (hs₆.move h.agrees.isBehind)
    (isPlaced_of_follows h.agrees.follows hkind hopening) (.content hcontent)
    fun _ => .inr ⟨hbegins, Position.le_refl _⟩).mono fun _ s₈ hs₈ => ?_
  exact proceeds_of_follows (.inl hs₈) hc hnext h.agrees.follows

theorem flowEnd_leads {kind : Token.Kind} (hkind : Token.IsMarked origin ⟨c.position, kind⟩)
    (hopening : Token.IsOpening origin ⟨c.position, kind⟩ []) :
    (flowEnd kind).Leads s fun _ => Lexer.Proceeds origin c := by
  rw [flowEnd]
  refine (dropCandidate_leads hs.awaits_outer).bind fun _ s₁ hs₁ => ?_
  refine Leads.bind (P := fun _ => Lexer.Awaits origin c c.position .begun) (leads_modify ?_)
    fun _ s₂ hs₂ => ?_
  · split
    · next k ks houter =>
      refine hs₁.forget ?_ (.inr rfl)
      show (k :: ks).reduceOption.Sublist s₁.candidates
      rw [← houter]
      exact s₁.sublist_candidates
    · exact hs₁
  refine keeps_allowKey.bind hs₂ fun _ s₃ hs₃ => ?_
  refine keeps_endPair.bind hs₃ fun _ s₄ hs₄ => ?_
  refine leads_cursor_bind hs₄.cursor ((advance_leads hs₄).bind fun _ s₅ hs₅ => ?_)
  refine skipTrailing_leads.bind fun _ s₆ ⟨c', hs₆, h⟩ => leads_inFlow_bind ?_
  subst hs₆
  rw [hs₅.cursor] at h
  have hs₆ := hs₅.move h.agrees.isBehind
  refine leads_when (P := fun _ => Lexer.Awaits origin c' c.position .begun)
    (fun _ => leads_modify { hs₆ with }) (fun _ => hs₆) fun s₇ hs₇ => ?_
  refine (pushLast_leads hs₇ (isPlaced_of_follows h.agrees.follows hkind hopening)).mono
    fun _ s₈ hs₈ => ?_
  exact proceeds_of_follows (.inl hs₈) hc hnext h.agrees.follows

theorem flowEntry_leads : flowEntry.Leads s fun _ => Lexer.Proceeds origin c := by
  rw [flowEntry]
  refine (dropCandidate_leads hs.awaits_outer).bind fun _ s₁ hs₁ => ?_
  refine keeps_allowKey.bind hs₁ fun _ s₂ hs₂ => ?_
  refine keeps_endPair.bind hs₂ fun _ s₃ hs₃ => leads_cursor_bind hs₃.cursor ?_
  refine (advance_leads hs₃).bind fun _ s₄ hs₄ => ?_
  refine skipTrailing_leads.bind fun _ s₅ ⟨c', hs₅, h⟩ => ?_
  subst hs₅
  rw [hs₄.cursor] at h
  have hkind : Token.IsPlaced origin c' c.position ⟨c.position, .flowEntry⟩ :=
    isPlaced_of_follows h.agrees.follows trivial trivial
  refine (pushLast_leads (hs₄.move h.agrees.isBehind) hkind).mono fun _ s₆ hs₆ => ?_
  exact proceeds_of_follows (.inl hs₆) hc hnext h.agrees.follows

end Content

/-! ## Keys and values -/

/-- What a colon may put in front of a member: nothing, or the start of a mapping, which is marked
at the colon or where reading goes on. -/
def IsStart (colon place : Position) (start : List Token) : Prop :=
  start = [] ∨ start = [⟨colon, .blockMappingStart⟩] ∨ start = [⟨place, .flowMappingStart⟩]

/-- None of a member's tokens is marked behind its colon, so the start that is put in front of it
is not in front of any of them either. -/
theorem keysFollow_start {colon place : Position} {start ts : List Token}
    (hstart : IsStart colon place start) (hplace : colon ≤ place)
    (hmember : ∀ m, colon ≤ m → BeginsMember origin m ts) (hts : KeysFollow origin ts) :
    KeysFollow origin (start ++ ts) := by
  rcases hstart with rfl | rfl | rfl
  · exact hts
  · exact ⟨.inr (hmember colon (Position.le_refl _)), hts⟩
  · exact ⟨.inr (hmember place hplace), hts⟩

theorem isMarked_start {colon place : Position} {start : List Token}
    (hstart : IsStart colon place start) (hle : colon ≤ place) :
    ∀ t ∈ start, t.IsMarked origin ∧ colon ≤ t.position ∧ t.position ≤ place := by
  rcases hstart with rfl | rfl | rfl
  · exact List.forall_mem_nil _
  · exact List.forall_mem_singleton.2 ⟨trivial, Position.le_refl _, hle⟩
  · exact List.forall_mem_singleton.2 ⟨trivial, hle, Position.le_refl _⟩

/-- What a colon leaves: some tokens as they were, others behind them, and no candidate. -/
structure Inserts (s s' : Lexer) (front more : List Token) : Prop where
  cursor : s'.cursor = s.cursor
  outer : s'.outer = s.outer
  candidate : s'.candidate = none
  tokens : s'.tokens.toList = front ++ more

theorem insertIdx_length_append {α : Type} (front behind : List α) (a : α) :
    (front ++ behind).insertIdx front.length a = front ++ a :: behind := by
  induction front with
  | nil => cases behind <;> rfl
  | cons b front ih => exact congrArg (b :: ·) ih

theorem insert_leads {front behind : List Token} {p : Position} {kind : Token.Kind}
    (htokens : s.tokens.toList = front ++ behind) :
    (Lex.insert front.length p kind).Leads s fun _ s' =>
      ∃ tokens, s' = { s with tokens } ∧ tokens.toList = front ++ ⟨p, kind⟩ :: behind := by
  refine leads_modify ⟨_, rfl, ?_⟩
  have hsize : front.length ≤ s.tokens.size := by
    rw [← Array.length_toList, htokens, List.length_append]
    exact Nat.le_add_right _ _
  rw [Array.insertIdxIfInBounds, dif_pos hsize, Array.toList_insertIdx, htokens,
    insertIdx_length_append]

theorem roll_leads {column : Nat} {add : Lex Unit} {Q : Unit → Lexer → Prop}
    (hadd : s.outer = [] → ∀ indentation, add.Leads { s with indentation } Q)
    (hskip : ∀ indentation, Q () { s with indentation }) : (roll column add).Leads s Q := by
  rw [roll]
  refine leads_inFlow_bind (leads_ite (fun _ => leads_pure (hskip s.indentation)) fun hflow => ?_)
  refine leads_get_bind ?_
  refine (leads_modify (Q := fun _ s' => ∃ indentation, s' = { s with indentation })
    ⟨_, rfl⟩).bind ?_
  rintro _ _ ⟨indentation, rfl⟩
  have houter : s.outer = [] := by simpa using hflow
  exact leads_ite (fun _ => hadd houter indentation) fun _ => leads_pure (hskip indentation)

theorem nudge_leads : nudge.Leads s fun _ s' => ∃ indentation, s' = { s with indentation } :=
  leads_inFlow_bind <|
    leads_ite (fun _ => leads_pure ⟨_, rfl⟩) fun _ => leads_modify ⟨_, rfl⟩

/-- The key of a candidate is put in front of its tokens. -/
theorem valueOfCandidate_leads {k : Candidate} {colon : Position} {pair : Bool}
    {front behind : List Token} (htokens : s.tokens.toList = front ++ behind)
    (hnumber : front.length = k.number) (hpair : pair = true → s.outer ≠ []) :
    (valueOfCandidate k colon pair).Leads s fun _ s' =>
      ∃ start, IsStart colon s.cursor.position start ∧
        Inserts s s' front (start ++ ⟨k.position, .key⟩ :: behind) := by
  have hbehind : ∀ (start : List Token) {s₁ : Lexer}, s₁.cursor = s.cursor → s₁.outer = s.outer →
      IsStart colon s.cursor.position start → (s.outer = [] → start = []) →
      s₁.tokens.toList = front ++ (start ++ ⟨k.position, .key⟩ :: behind) → Leads (do
        roll k.position.column (Lex.insert k.number colon .blockMappingStart)
        nudge
        modify fun s => { s with candidate := none }
        allowKey false) s₁ fun _ s' => ∃ start, IsStart colon s.cursor.position start ∧
          Inserts s s' front (start ++ ⟨k.position, .key⟩ :: behind) := by
    intro start s₁ hcursor houter hstart hnone htokens₁
    refine (roll_leads (Q := fun _ s₂ => ∃ start, IsStart colon s.cursor.position start ∧
      s₂.cursor = s.cursor ∧ s₂.outer = s.outer ∧
      s₂.tokens.toList = front ++ (start ++ ⟨k.position, .key⟩ :: behind)) ?_ ?_).bind ?_
    · intro houter₁ indentation
      obtain rfl := hnone (houter ▸ houter₁)
      rw [← hnumber]
      refine (insert_leads (s := { s₁ with indentation }) htokens₁).mono ?_
      rintro _ _ ⟨tokens, rfl, htokens₂⟩
      exact ⟨[_], .inr (.inl rfl), hcursor, houter, htokens₂⟩
    · exact fun _ => ⟨start, hstart, hcursor, houter, htokens₁⟩
    · rintro _ s₂ ⟨start, hstart, hcursor, houter, htokens₂⟩
      refine nudge_leads.bind ?_
      rintro _ _ ⟨indentation, rfl⟩
      refine Leads.bind (P := fun _ s₃ => s₃ = { s₂ with indentation, candidate := none })
        (leads_modify rfl) ?_
      rintro _ _ rfl
      exact leads_modify ⟨start, hstart, hcursor, houter, rfl, htokens₂⟩
  rw [valueOfCandidate, ← hnumber]
  refine (insert_leads htokens).bind ?_
  rintro _ _ ⟨tokens, rfl, htokens₁⟩
  dsimp only
  rw [hnumber]
  refine leads_ite (fun hp => ?_) fun _ => hbehind [] rfl rfl (.inl rfl) (fun _ => rfl) htokens₁
  refine leads_ite (fun _ => leads_failAt_bind) fun _ => leads_cursor_bind rfl ?_
  rw [← hnumber]
  refine (insert_leads htokens₁).bind ?_
  rintro _ _ ⟨tokens', rfl, htokens₂⟩
  rw [hnumber]
  exact hbehind [_] rfl rfl (.inr (.inr rfl)) (fun hnil => absurd hnil (hpair hp))
    htokens₂

/-- Where there is no candidate, the key is missing, or its tokens are there already. -/
theorem valueAlone_leads {colon : Position} {pair : Bool} (hcandidate : s.candidate = none)
    (hpair : pair = true → s.outer ≠ []) :
    (valueAlone colon pair).Leads s fun _ s' =>
      ∃ start, IsStart colon s.cursor.position start ∧ Inserts s s' s.tokens.toList start := by
  have hend : ∀ (allowed : Bool) (s₁ : Lexer) {start : List Token},
      IsStart colon s.cursor.position start → Inserts s s₁ s.tokens.toList start →
      Leads (do nudge; allowKey allowed) s₁ fun _ s' =>
        ∃ start, IsStart colon s.cursor.position start ∧ Inserts s s' s.tokens.toList start := by
    intro allowed s₁ start hstart hs₁
    refine nudge_leads.bind ?_
    rintro _ _ ⟨indentation, rfl⟩
    exact leads_modify ⟨start, hstart, { hs₁ with }⟩
  rw [valueAlone]
  refine leads_ite (fun hp => leads_cursor_bind rfl ?_) fun _ => leads_inFlow_bind ?_
  · refine Leads.bind (P := fun _ s₁ => s₁ = { s with
      tokens := s.tokens.push ⟨s.cursor.position, .flowMappingStart⟩ }) (leads_modify rfl) ?_
    rintro _ _ rfl
    refine leads_inFlow_bind (leads_ite (fun _ => ?_) fun hflow => absurd ?_ (hpair hp))
    · exact hend _ _ (.inr (.inr rfl)) ⟨rfl, rfl, hcandidate, Array.toList_push⟩
    · simpa using hflow
  · refine leads_ite (fun _ => ?_) fun _ => leads_get_bind ?_
    · exact hend _ s (.inl rfl) ⟨rfl, rfl, hcandidate, (List.append_nil _).symm⟩
    refine leads_ite (fun _ => ?_) fun _ => leads_failAt_bind
    refine (roll_leads (Q := fun _ s₁ => ∃ start, IsStart colon s.cursor.position start ∧
      Inserts s s₁ s.tokens.toList start) ?_ ?_).bind ?_
    · exact fun _ _ => leads_modify ⟨[_], .inr (.inl rfl), rfl, rfl, hcandidate, Array.toList_push⟩
    · exact fun _ => ⟨[], .inl rfl, rfl, rfl, hcandidate, (List.append_nil _).symm⟩
    · exact fun _ s₁ ⟨start, hstart, hs₁⟩ => hend _ s₁ hstart hs₁

/-- The gap behind a question mark is passed. -/
theorem keyGap_agrees (bound : List Char) (c : Cursor) (any ended : Bool) :
    (keyGap bound c any ended).2.2.Agrees c := by
  induction bound generalizing c any ended with
  | nil => exact c.agrees_refl
  | cons _ bound ih =>
    rw [keyGap]
    split
    · next hspace =>
      have hadvance : (c.skipBlanks 1).Agrees c :=
        (c.agrees_refl.advance_one (by rw [hspace]; rfl)).skipBlanks
      exact hadvance.trans (ih _ _ _)
    · split
      · exact c.agrees_refl.newline.trans (ih _ _ _)
      · split
        · exact c.agrees_refl.skipLine.trans (ih _ _ _)
        · exact c.agrees_refl

/-- With the colon behind it the key of a candidate has begun, also if it only has properties. -/
theorem beginsKey_of_candidate {k : Candidate} (hs : s.Marked origin c) (hk : k ∈ s.candidate)
    (hcolon : Indicated origin c.position) :
    BeginsKey origin (s.tokens.toList.drop k.number ++ [⟨c.position, .value⟩]) := by
  rcases hs.awaits.begun k (Lexer.mem_candidates hk) with hbegun | ⟨-, hbare⟩
  · exact BeginsKey.append hbegun _
  · exact (BeginsKey.sign rfl hcolon).of_properties hbare.properties

/-- The token for a key is followed by the key. -/
theorem keysFollow_of_candidate {k : Candidate} (hs : s.Marked origin c) (hk : k ∈ s.candidate)
    (hcolon : Indicated origin c.position) (hrest : c.rest ≠ []) :
    KeysFollow origin
      (⟨k.position, .key⟩ :: (s.tokens.toList.drop k.number ++ [⟨c.position, .value⟩])) := by
  have hfits := hs.awaits.fits k (Lexer.mem_candidates hk)
  have hupTo : ∀ t ∈ s.tokens.toList.drop k.number, t.position ≤ c.position := fun t ht =>
    hs.awaits.upTo t (Array.mem_toList_iff.1 (List.mem_of_mem_drop ht))
  obtain ⟨t, own, hown⟩ := List.exists_cons_of_ne_nil (hs.read k hk)
  refine ⟨?_, (hs.awaits.keys.of_suffix (List.drop_suffix _ _)).append ⟨trivial, trivial⟩ ?_⟩
  · rcases hfits.first t (hown ▸ rfl) hrest with hintroduced | hfirst
    · exact .inl ⟨hintroduced, List.forall_mem_append.2
        ⟨hfits.own, List.forall_mem_singleton.2 hfits.le⟩⟩
    · exact .inr ⟨beginsKey_of_candidate hs hk hcolon, t, by rw [hown]; rfl, hfirst⟩
  · exact fun t ht => List.forall_mem_singleton.2 (hupTo t ht)

section Content

variable (hs : s.Marked origin c) (hc : c.Agrees origin) (hnext : isLineEnd c.next = false)
include hs hc hnext

theorem blockEntry_leads (hdash : c.next = '-') :
    blockEntry.Leads s fun _ => Lexer.Proceeds origin c := by
  have hstart : StandsAt origin c.position '-' := hdash ▸ hc.standsAt hnext
  have hsequence :
      Token.IsPlaced origin (c.advance 1) c.position ⟨c.position, .blockSequenceStart⟩ :=
    isPlaced_of_follows (Cursor.agrees_refl _).follows hstart trivial
  rw [blockEntry]
  refine leads_get_bind (leads_inFlow_bind ?_)
  dsimp only
  rw [hs.awaits.cursor]
  refine leads_ite (fun _ => leads_fail_bind) fun _ => ?_
  refine leads_ite (fun _ => ?_) fun _ => leads_fail_bind
  refine leads_ite_of_else ?_ fun h => ?_
  · refine (advance_leads hs.awaits_outer).bind fun _ s₁ hs₁ => ?_
    refine (keeps_roll (keeps_push (by simp) hsequence)).bind hs₁ fun _ s₂ hs₂ => ?_
    refine skipTrailing_leads.bind fun ⟨tab, _⟩ s₃ ⟨c', hs₃, h⟩ => ?_
    subst hs₃
    rw [hs₂.cursor] at h
    have hs₃ := hs₂.move h.agrees.isBehind
    have hbehind : c.position ≤ c'.position := (isBehind_of_follows h.agrees.follows).le
    have hentry : Token.IsPlaced origin c' c.position ⟨c'.position, .blockEntry⟩ := by
      refine ⟨?_, hbehind, Position.le_refl _, trivial⟩
      obtain ⟨gap, hgap, hrest, hposition⟩ := h.exists_gap
      obtain ⟨cs, hcs⟩ := Cursor.rest_eq_of_next (ne_nul_of_isLineEnd hnext)
      refine ⟨c.position, gap, c'.rest, ?_, hgap, hposition⟩
      have hbehind : (c.advance 1).rest = cs := congrArg (List.drop 1) hcs
      rw [← hrest, hbehind, ← hdash, ← hcs]
      exact hc
    refine leads_cursor_bind hs₃.cursor (leads_ite (fun _ => leads_fail_bind) fun _ => ?_)
    refine leads_when (P := fun _ => Lexer.Awaits origin c' c.position .outer)
      (fun _ => keeps_nudge _ hs₃) (fun _ => hs₃) fun s₄ hs₄ => ?_
    refine (dropCandidate_leads hs₄).bind fun _ s₅ hs₅ => keeps_allowKey.bind hs₅ fun _ s₆ hs₆ => ?_
    refine (pushLast_leads hs₆ hentry).mono fun _ s₇ hs₇ => ?_
    exact proceeds_of_follows (.inl hs₇) hc hnext h.agrees.follows
  · split
    · exact leads_failAt_bind
    · exact h

theorem key_leads (hquestion : c.next = '?') : key.Leads s fun _ => Lexer.Proceeds origin c := by
  have hstands : StandsAt origin c.position '?' := hquestion ▸ hc.standsAt hnext
  have hintroduces : ∀ kind, Token.Introduces origin ⟨c.position, kind⟩ [] := fun _ =>
    ⟨⟨'?', by decide, hstands⟩, List.forall_mem_nil _⟩
  have hmapping : Token.IsPlaced origin c c.position ⟨c.position, .blockMappingStart⟩ :=
    ⟨trivial, Position.le_refl _, Position.le_refl _, .inl (hintroduces _)⟩
  have hgap := keyGap_agrees (s.cursor.advance 1).rest (s.cursor.advance 1) false false
  rw [key]
  refine leads_get_bind (leads_inFlow_bind ?_)
  dsimp only
  generalize keyGap (s.cursor.advance 1).rest (s.cursor.advance 1) false false = r at *
  obtain ⟨any, ended, c'⟩ := r
  rw [hs.awaits.cursor] at hgap ⊢
  have h : c'.Follows (c.advance 1) := Cursor.Agrees.follows hgap
  have hkey : Token.IsPlaced origin c' c.position ⟨c.position, .key⟩ :=
    isPlaced_of_follows h trivial (.inl (hintroduces _))
  have hs' := hs.awaits_outer
  refine leads_ite_bind (P := fun _ => Lexer.Awaits origin c c.position .outer)
    (fun _ => leads_modify { hs' with }) (fun s₁ hs₁ => ?_) fun _ hbehind => ?_
  · refine (dropCandidate_leads hs₁).bind fun _ s₂ hs₂ => keeps_allowKey.bind hs₂ fun _ s₃ hs₃ => ?_
    refine (goTo_leads hs₃ (isBehind_of_follows h)).bind fun _ s₄ hs₄ => ?_
    refine leads_when (P := fun _ => Lexer.Awaits origin c' c.position .begun)
      (fun _ => keeps_allowKey s₄ hs₄) (fun _ => hs₄) fun s₅ hs₅ => ?_
    refine leads_ite (fun _ => ?_) fun _ => leads_fail_bind
    refine leads_ite (fun _ => leads_fail_bind) fun _ => ?_
    refine (pushLast_leads hs₅ hkey).mono fun _ s₆ hs₆ => ?_
    exact proceeds_of_follows (.inl hs₆) hc hnext h
  · refine leads_ite (fun _ => ?_) fun _ => leads_fail_bind
    exact (keeps_roll (keeps_push (by simp) hmapping)).bind hs' fun _ => hbehind

/-- The token of a colon is put behind those of its member, which are all marked in front of it. -/
theorem pushValue_leads {s₁ s₂ : Lexer} {n : Nat} {m : Position} {start member : List Token}
    (h : s₁.cursor.Agrees (c.advance 1)) (houter : s₁.outer = s.outer)
    (hinserts : Inserts s₁ s₂ (s.tokens.toList.take n) (start ++ member))
    (hstart : IsStart c.position s₁.cursor.position start)
    (hfront : KeysFollow origin (s.tokens.toList.take n))
    (hbegun : ∀ k ∈ s.outer.reduceOption,
      BeginsKey origin ((s.tokens.toList.take n).drop k.number))
    (hm : m ≤ c.position) (hle : ∀ t ∈ s.tokens.toList.take n, t.position ≤ m)
    (hmember : ∀ t ∈ member, t.IsMarked origin ∧ m ≤ t.position ∧ t.position ≤ c.position)
    (hkeys : KeysFollow origin (member ++ [⟨c.position, .value⟩]))
    (hhead : ∃ t ∈ (member ++ [(⟨c.position, .value⟩ : Token)]).head?,
      t.kind = .key ∧ BeginsKey origin (member ++ [(⟨c.position, .value⟩ : Token)]).tail ∨
        t.kind = .value ∧ Indicated origin t.position) :
    (push c.position .value).Leads s₂ fun _ => Lexer.Proceeds origin c := by
  have hbehind : s₁.cursor.IsBehind c := isBehind_of_follows h.follows
  rw [← hinserts.cursor] at h hstart hbehind
  have hmore : ∀ t ∈ member ++ [⟨c.position, .value⟩],
      t.IsMarked origin ∧ m ≤ t.position ∧ t.position ≤ c.position :=
    List.forall_mem_append.2
      ⟨hmember, List.forall_mem_singleton.2 ⟨trivial, hm, Position.le_refl _⟩⟩
  have htokens : (s₂.tokens.push ⟨c.position, .value⟩).toList =
      s.tokens.toList.take n ++ (start ++ (member ++ [⟨c.position, .value⟩])) := by
    rw [Array.toList_push, hinserts.tokens]
    simp
  have hcursor : { s₂ with tokens := s₂.tokens.push ⟨c.position, .value⟩ }.cursor.IsBehind c :=
    hbehind
  refine leads_modify (proceeds_of_follows (.inl ?_) hc hnext h.follows)
  refine hs.rewrite hcursor (hinserts.outer.trans houter) hinserts.candidate htokens hfront
    hbegun hle ?_ ?_
  · refine List.forall_mem_append.2 ⟨fun t ht => ?_, fun t ht => ?_⟩
    · obtain ⟨hmarked, hge, hplaced⟩ := isMarked_start hstart hbehind.le t ht
      exact ⟨hmarked, Position.le_trans hm hge, hplaced⟩
    · obtain ⟨hmarked, hge, hplaced⟩ := hmore t ht
      exact ⟨hmarked, hge, Position.le_trans hplaced hbehind.le⟩
  · refine keysFollow_start hstart hbehind.le (fun p hp => ⟨?_, hhead⟩) hkeys
    exact comesToColon_concat (fun t ht => Position.le_trans (hmember t ht).2.2 hp) rfl hp

theorem value_leads (hcolon : c.next = ':') :
    value.Leads s fun _ => Lexer.Proceeds origin c := by
  have hindicated : Indicated origin c.position :=
    ⟨':', by decide, hcolon ▸ hc.standsAt hnext⟩
  have hpair : (!s.outer.isEmpty && !s.inMapping) = true → s.outer ≠ [] := by
    intro h hnil
    rw [hnil] at h
    cases h
  -- The cursor stands behind the colon, and perhaps behind blanks.
  have hcandidate : ∀ {s₁ : Lexer} {k : Candidate}, s₁.cursor.Agrees (c.advance 1) →
      s₁.tokens = s.tokens → s₁.outer = s.outer → k ∈ s.candidate →
      Leads (do
        valueOfCandidate k c.position (!s.outer.isEmpty && !s.inMapping)
        push c.position .value) s₁ fun _ => Lexer.Proceeds origin c := by
    intro s₁ k h htokens houter hk
    have hfits := hs.awaits.fits k (Lexer.mem_candidates hk)
    have hnested := hs.awaits.nested
    rw [show s.known .bare = k :: s.outer.reduceOption from Lexer.candidates_of_mem hk] at hnested
    obtain ⟨cs, hcs⟩ := Cursor.rest_eq_of_next (ne_nul_of_isLineEnd hnext)
    have hsplit : s₁.tokens.toList =
        s.tokens.toList.take k.number ++ s.tokens.toList.drop k.number := by
      rw [htokens, List.take_append_drop]
    refine (valueOfCandidate_leads hsplit (List.length_take_of_le hfits.number_le)
      (houter.symm ▸ hpair)).bind ?_
    rintro _ s₂ ⟨start, hstart, hinserts⟩
    refine pushValue_leads hs hc hnext h houter hinserts hstart hfits.keys
      (List.pairwise_cons.1 hnested).1 hfits.le hfits.front ?_ ?_ ?_
    · refine List.forall_mem_cons.2
        ⟨⟨trivial, Position.le_refl _, hfits.le⟩, fun t ht => ?_⟩
      have hmem : t ∈ s.tokens := Array.mem_toList_iff.1 (List.mem_of_mem_drop ht)
      exact ⟨hs.awaits.tokens t hmem, hfits.own t ht, hs.awaits.upTo t hmem⟩
    · exact keysFollow_of_candidate hs hk hindicated (hcs ▸ List.cons_ne_nil _ _)
    · exact ⟨_, rfl, .inl ⟨rfl, beginsKey_of_candidate hs hk hindicated⟩⟩
  have halone : ∀ {s₁ : Lexer}, s₁.cursor.Agrees (c.advance 1) →
      s₁.tokens = s.tokens → s₁.outer = s.outer →
      s₁.candidate = none → Leads (do
        valueAlone c.position (!s.outer.isEmpty && !s.inMapping)
        push c.position .value) s₁ fun _ => Lexer.Proceeds origin c := by
    intro s₁ h htokens houter hnone
    refine (valueAlone_leads hnone (houter.symm ▸ hpair)).bind ?_
    rintro _ s₂ ⟨start, hstart, hinserts⟩
    have hall : s.tokens.toList.take s.tokens.toList.length = s.tokens.toList := List.take_length
    rw [htokens, ← List.append_nil start, ← hall] at hinserts
    refine pushValue_leads hs hc hnext h houter hinserts hstart ?_ ?_
      (Position.le_refl _) ?_ (List.forall_mem_nil _) ⟨trivial, trivial⟩
      ⟨_, rfl, .inr ⟨rfl, hindicated⟩⟩
    · exact hall.symm ▸ hs.awaits.keys
    · exact hall.symm ▸ hs.outer
    · exact hall.symm ▸ fun t ht => hs.awaits.upTo t (Array.mem_toList_iff.1 ht)
  rw [value]
  refine leads_get_bind ?_
  dsimp only
  obtain rfl := hs.awaits.cursor
  refine Leads.bind (P := fun _ s₁ => s₁ = { s with inPair := !s.outer.isEmpty && !s.inMapping })
    (leads_set rfl) ?_
  rintro _ _ rfl
  refine Leads.bind (P := fun _ s₁ => s₁ = { s with
    inPair := !s.outer.isEmpty && !s.inMapping
    cursor := s.cursor.advance 1 }) (leads_modify rfl) ?_
  rintro _ _ rfl
  refine leads_cursor_bind rfl (leads_ite (fun _ => ?_) fun _ => ?_)
  · refine skipTrailing_leads.bind ?_
    rintro ⟨_, space⟩ _ ⟨c', rfl, htrails⟩
    refine leads_cursor_bind rfl (leads_ite (fun _ => leads_fail_bind) fun _ => ?_)
    cases hk : s.candidate with
    | none => exact halone htrails.agrees rfl rfl rfl
    | some k => exact hcandidate htrails.agrees rfl rfl hk
  · cases hk : s.candidate with
    | none => exact halone (Cursor.agrees_refl _) rfl rfl rfl
    | some k => exact hcandidate (Cursor.agrees_refl _) rfl rfl hk

end Content

/-! ## Properties and scalars -/

/-- What opens a plain scalar is text of it. -/
theorem isContent_of_opens {text : String} {line : List Char}
    (h : Opens .plain text.toList line) : Token.Kind.isContent (.scalar .plain text) = true := by
  have hne : ∀ cs : List Char, Opens .plain cs line → cs ≠ [] := by
    intro cs h
    cases h with
    | plain htext => exact htext
    | plainFolded htext _ _ => exact List.append_ne_nil_of_left_ne_nil htext _
    | quoted hstyle _ => cases hstyle
    | quotedFolded hstyle _ _ _ => cases hstyle
    | block hstyle _ _ => cases hstyle
    | header hstyle => cases hstyle
  have htext : text ≠ "" := by
    rintro rfl
    exact hne _ h rfl
  simpa [Token.Kind.isContent] using htext

section Content

variable (hs : s.Marked origin c) (hc : c.Agrees origin) (hnext : isLineEnd c.next = false)
  (hroom : s.outer = [] → s.indentation.Clears c.column)
include hs hc hnext hroom

/-- The name of an anchor or an alias is read in front of its token. -/
theorem anchor_leads {kind : String → Token.Kind}
    (hpush : ∀ name {s' : Lexer} {c' : Cursor}, c'.Follows (c.advance 1) →
      s'.Reads origin c' c.position →
        (push c.position (kind name)).Leads s' fun _ => Lexer.Marked origin c') :
    (anchor kind).Leads s fun _ => Lexer.Proceeds origin c := by
  rw [anchor]
  refine (saveCandidate_leads hs hroom).bind fun _ s₁ ⟨hs₁, _⟩ => ?_
  refine Leads.bind (P := fun _ s' => s'.Reads origin c c.position)
    (leads_modify { hs₁ with awaits := { hs₁.awaits with } }) fun _ s₂ hs₂ => ?_
  refine leads_cursor_bind hs₂.awaits.cursor ?_
  refine leads_lift_bind (Property.anchorName_yields c) fun ⟨name, c'⟩ hagrees => ?_
  have h : c'.Follows (c.advance 1) := Cursor.Agrees.follows hagrees
  refine Leads.bind (P := fun _ s' => s'.Reads origin c' c.position)
    (leads_modify (hs₂.move (isBehind_of_follows h))) fun _ s₃ hs₃ => ?_
  exact (hpush name h hs₃).mono fun _ s₄ hs₄ => proceeds_of_follows (.inl hs₄) hc hnext h

theorem tag_leads (htag : c.next = '!') : tag.Leads s fun _ => Lexer.Proceeds origin c := by
  have hstands : StandsAt origin c.position '!' := htag ▸ hc.standsAt hnext
  rw [tag]
  refine (saveCandidate_leads hs hroom).bind fun _ s₁ ⟨hs₁, _⟩ => ?_
  refine Leads.bind (P := fun _ s' => s'.Reads origin c c.position)
    (leads_modify { hs₁ with awaits := { hs₁.awaits with } }) fun _ s₂ hs₂ => ?_
  refine leads_cursor_bind hs₂.awaits.cursor (leads_inFlow_bind ?_)
  refine leads_lift_bind (Property.tag_yields _ c) fun ⟨kind, c'⟩ ⟨hagrees, handle, hhandle⟩ => ?_
  obtain rfl : kind = .tag handle := hhandle
  have h : c'.Follows (c.advance 1) := Cursor.Agrees.follows hagrees
  refine Leads.bind (P := fun _ s' => s'.Reads origin c' c.position)
    (leads_modify (hs₂.move (isBehind_of_follows h))) fun _ s₃ hs₃ => ?_
  have hkind : Token.IsPlaced origin c' c.position ⟨c.position, .tag handle⟩ :=
    isPlaced_of_follows h trivial trivial
  refine (pushProperty_leads hs₃ hkind rfl
    ⟨'!', by decide, hstands⟩).mono fun _ s₄ hs₄ => ?_
  exact proceeds_of_follows (.inl hs₄) hc hnext h

theorem quotedScalar_leads {style : Style} (hstyle : style.quote? = some c.next) :
    (quotedScalar style).Leads s fun _ => Lexer.Proceeds origin c := by
  have hline : firstLine c.rest ≠ [] := by
    rw [firstLine_of_next hnext]
    exact List.cons_ne_nil _ _
  rw [quotedScalar]
  refine (saveCandidate_leads hs hroom).bind fun _ s₁ ⟨hs₁, _⟩ => ?_
  refine keeps_allowKey.bind hs₁.awaits fun _ s₂ hs₂ => leads_get_bind (leads_inFlow_bind ?_)
  rw [hs₂.cursor]
  refine leads_lift_bind ((Quoted.read_yields hnext).and (Quoted.read_opens hstyle))
    fun ⟨content, c'⟩ ⟨hagrees, hopens⟩ => ?_
  have h : c'.Follows (c.advance 1) := Cursor.Agrees.follows hagrees
  refine (goTo_leads hs₂ (isBehind_of_follows h)).bind fun _ s₃ hs₃ => ?_
  refine skipGap_leads.bind ?_
  rintro _ _ ⟨c'', keyAllowed, rfl, hgap, -⟩
  rw [hs₃.cursor] at hgap
  have hs₄ := hs₃.move hgap.isBehind
  refine Leads.bind (P := fun _ => Lexer.Awaits origin c'' c.position .bare)
    (leads_modify { hs₄ with }) fun _ s₅ hs₅ => ?_
  have h' : c''.Follows (c.advance 1) := h.trans hgap
  have hscalar : Token.IsMarked origin ⟨c.position, .scalar style content⟩ :=
    ⟨c.rest, hc, hline, .inl hopens⟩
  have hcontent : Token.Kind.isContent (.scalar style content) = true := by
    cases style <;> first | rfl | cases hstyle
  refine (pushKey_leads hs₅ (isPlaced_of_follows h' hscalar trivial) (.content hcontent)
    fun _ => .inr ⟨rfl, Position.le_refl _⟩).mono fun _ s₆ hs₆ => ?_
  exact proceeds_of_follows (.inl hs₆) hc hnext h'

/-- A block scalar is no key: the candidate that it may be is stale when it has been read, unless
nothing is left of the text. -/
theorem blockScalar_leads {style : Style} (hstyle : style.indicator? = some c.next)
    (hnul : '\x00' ∉ origin.rest) (houter : s.outer = []) :
    (blockScalar style).Leads s fun _ => Lexer.Proceeds origin c := by
  have hbehind : '\x00' ∉ (c.advance 1).rest :=
    fun h => hnul ((hc.advance_one hnext).suffix.subset h)
  rw [blockScalar]
  refine (saveCandidate_leads hs hroom).bind fun _ s₁ ⟨hs₁, houter₁⟩ => ?_
  refine Leads.bind (P := fun _ s' => s'.Awaits origin c c.position .bare ∧ s'.outer = s.outer)
    (leads_modify ⟨{ hs₁.awaits with }, houter₁⟩) fun _ s₂ ⟨hs₂, houter₂⟩ => ?_
  refine Leads.bind (P := fun _ s' => s'.Awaits origin c c.position .bare ∧ s'.outer = s.outer)
    (leads_modify ⟨{ hs₂ with }, houter₂⟩) fun _ s₃ ⟨hs₃, houter₃⟩ => leads_get_bind ?_
  rw [hs₃.cursor]
  refine leads_lift_bind (Block.read_opens hstyle hbehind) fun ⟨content, p, c'⟩ hread => ?_
  dsimp only at hread ⊢
  have hmove := hs₃.move (isBehind_of_follows hread.follows)
  have hscalar : Token.IsPlaced origin c' c.position ⟨p, .scalar style content⟩ := by
    rcases hread.opens with ⟨rfl, hopens⟩ | ⟨c'', hagrees, rfl, hline, hopens⟩
    · refine ⟨⟨c.rest, hc, ?_, .inl hopens⟩, Position.le_refl _, hread.le, trivial⟩
      rw [firstLine_of_next hnext]
      exact List.cons_ne_nil _ _
    · refine ⟨⟨c''.rest, (hc.advance_one hnext).trans hagrees, ?_, hopens⟩,
        (isBehind_of_follows hagrees.follows).le, hread.le, trivial⟩
      rw [firstLine_of_next hline]
      exact List.cons_ne_nil _ _
  have hcontent : Token.Kind.isContent (.scalar style content) = true := by
    cases style <;> first | rfl | cases hstyle
  refine Leads.bind (P := fun _ s' => s' = { s₃ with cursor := c' }) (leads_modify rfl) ?_
  rintro _ _ rfl
  refine Leads.mono (P := fun _ s' => s'.MarkedButStale origin c') ?_
    fun _ s' hs' => proceeds_of_follows hs' hc hnext hread.follows
  by_cases hrest : c'.rest = []
  · exact (pushKey_leads hmove hscalar (.content hcontent) fun hne => absurd hrest hne).mono
      fun _ _ => .inl
  · have hnone : Lexer.known { s₃ with candidate := none, cursor := c' } .begun = [] := by
      show (none :: s₃.outer).reduceOption = []
      rw [houter₃, houter]
      rfl
    have hdropped :
        { s₃ with candidate := none, cursor := c' }.Awaits origin c' c.position .begun :=
      { hmove with
        fits := hnone ▸ List.forall_mem_nil _
        nested := hnone ▸ .nil
        begun := hnone ▸ List.forall_mem_nil _ }
    refine leads_modify (.inr ⟨houter₃.trans houter, ?_, fun k hk => ?_⟩)
    · exact (pushLast_leads hdropped hscalar) _ rfl
    · have hfits := hs₃.fits k (Lexer.mem_candidates hk)
      exact Nat.lt_of_le_of_lt (Position.line_le hfits.le) (hread.below hrest)

theorem plainScalar_leads (hmarker : c.atDocumentMarker = false) (hhash : c.next ≠ '#')
    (hword : Plain.endsWord (!s.outer.isEmpty) c.next (c.look 1) = false) :
    plainScalar.Leads s fun _ => Lexer.Proceeds origin c := by
  have hline : firstLine c.rest ≠ [] := by
    rw [firstLine_of_next hnext]
    exact List.cons_ne_nil _ _
  rw [plainScalar]
  refine (saveCandidate_leads hs hroom).bind fun _ s₁ ⟨hs₁, houter₁⟩ => ?_
  refine Leads.bind (P := fun _ s' => s'.Awaits origin c c.position .bare ∧ s'.outer = s.outer)
    (leads_modify ⟨{ hs₁.awaits with }, houter₁⟩) fun _ s₂ ⟨hs₂, houter₂⟩ => ?_
  refine Leads.bind (P := fun _ s' => s'.Awaits origin c c.position .bare ∧ s'.outer = s.outer)
    (leads_modify ⟨{ hs₂ with }, houter₂⟩) fun _ s₃ ⟨hs₃, houter₃⟩ => ?_
  refine leads_get_bind (leads_inFlow_bind ?_)
  rw [hs₃.cursor, houter₃]
  refine leads_lift_bind ((Plain.read_yields hmarker hhash hword).and
    (Plain.read_opens hmarker hhash hword)) fun ⟨content, c'⟩ ⟨⟨hagrees, hless, _⟩, hopens⟩ => ?_
  have hbehind : c'.IsBehind c := Cursor.Agrees.isBehind hagrees
  have hscalar : Token.IsPlaced origin c' c.position ⟨c.position, .scalar .plain content⟩ :=
    ⟨⟨c.rest, hc, hline, .inl hopens⟩, Position.le_refl _, hbehind.le, trivial⟩
  refine (goTo_leads hs₃ hbehind).bind fun _ s₄ hs₄ => ?_
  refine leads_when (P := fun _ => Lexer.Awaits origin c' c.position .bare)
    (fun _ => keeps_allowKey s₄ hs₄) (fun _ => hs₄) fun s₅ hs₅ => ?_
  refine (pushKey_leads hs₅ hscalar (.content (isContent_of_opens hopens))
    fun _ => .inr ⟨rfl, Position.le_refl _⟩).mono fun _ s₆ hs₆ => ?_
  exact ⟨c', .inl hs₆, (hc.trans hagrees).follows, .inr hless⟩

end Content

/-! ## One reading -/

theorem content_leads (hs : s.Marked origin c) (hc : c.Agrees origin)
    (hnext : isLineEnd c.next = false) (hroom : s.outer = [] → s.indentation.Clears c.column)
    (hnul : '\x00' ∉ origin.rest) (hmarker : c.atDocumentMarker = false)
    (hblank : isBlank c.next = false) (hhash : c.next ≠ '#') :
    content.Leads s fun _ => Lexer.Proceeds origin c := by
  have hstands := hc.standsAt hnext
  rw [content]
  refine leads_get_bind (leads_inFlow_bind ?_)
  dsimp only
  rw [hs.awaits.cursor]
  refine leads_ite (fun h => ?_) fun hopen => ?_
  · have hkind : Token.IsMarked origin ⟨c.position, .flowSequenceStart⟩ :=
      show StandsAt origin c.position '[' from h ▸ hstands
    exact flowStart_leads hs hc hnext hroom hkind trivial rfl rfl
  refine leads_ite (fun h => ?_) fun hopen' => ?_
  · have hbrace : Token.Introduces origin ⟨c.position, .flowMappingStart⟩ [] :=
      ⟨⟨_, by decide, h ▸ hstands⟩, List.forall_mem_nil _⟩
    exact flowStart_leads hs hc hnext hroom trivial (.inl hbrace) rfl rfl
  refine leads_ite (fun _ => flowEnd_leads hs hc hnext trivial trivial) fun hclose => ?_
  refine leads_ite (fun _ => flowEnd_leads hs hc hnext trivial trivial) fun hclose' => ?_
  refine leads_ite (fun _ => flowEntry_leads hs hc hnext) fun hcomma => ?_
  refine leads_ite (fun h => ?_) fun _ => ?_
  · rw [Bool.and_eq_true, decide_eq_true_eq] at h
    exact blockEntry_leads hs hc hnext h.1
  refine leads_ite (fun h => ?_) fun _ => ?_
  · rw [Bool.and_eq_true, decide_eq_true_eq] at h
    exact key_leads hs hc hnext h.1
  refine leads_ite (fun h => ?_) fun hcolon => ?_
  · rw [Bool.and_eq_true, decide_eq_true_eq] at h
    exact value_leads hs hc hnext h.1
  refine leads_ite (fun h => ?_) fun _ => ?_
  · refine anchor_leads hs hc hnext hroom fun name _ _ hfollows hs' => ?_
    exact pushKey_leads hs'.awaits (isPlaced_of_follows hfollows trivial trivial)
      (.sign rfl ⟨'*', by decide, h ▸ hstands⟩) fun _ => .inr ⟨rfl, Position.le_refl _⟩
  refine leads_ite (fun h => ?_) fun _ => ?_
  · refine anchor_leads hs hc hnext hroom fun name _ _ hfollows hs' => ?_
    exact pushProperty_leads hs' (isPlaced_of_follows hfollows trivial trivial) rfl
      ⟨'&', by decide, h ▸ hstands⟩
  refine leads_ite (fun h => tag_leads hs hc hnext hroom h) fun _ => ?_
  refine leads_ite (fun h => ?_) fun _ => ?_
  · obtain ⟨hbar, houter⟩ : c.next = '|' ∧ s.outer = [] := by simpa using h
    exact blockScalar_leads hs hc hnext hroom (congrArg some hbar.symm) hnul houter
  refine leads_ite (fun h => ?_) fun _ => ?_
  · obtain ⟨hgreater, houter⟩ : c.next = '>' ∧ s.outer = [] := by simpa using h
    exact blockScalar_leads hs hc hnext hroom (congrArg some hgreater.symm) hnul houter
  refine leads_ite (fun h => ?_) fun _ => ?_
  · exact quotedScalar_leads hs hc hnext hroom (congrArg some h.symm)
  refine leads_ite (fun h => ?_) fun _ => ?_
  · exact quotedScalar_leads hs hc hnext hroom (congrArg some h.symm)
  refine leads_ite (fun _ => leads_fail) fun _ => ?_
  refine plainScalar_leads hs hc hnext hroom hmarker hhash ?_
  have hflow : isFlow c.next = false := by
    simp [isFlow, hopen, hopen', hclose, hclose', hcomma]
  have hgap : isGap c.next = false := by
    rw [isGap, hblank, hnext]
    rfl
  rw [Plain.endsWord, hgap, hflow, Bool.false_or, Bool.and_false, Bool.or_false]
  apply Bool.of_not_eq_true
  intro h
  apply hcolon
  simp only [Bool.and_eq_true, Bool.or_eq_true] at h ⊢
  rcases h with ⟨hchar, hend | ⟨hin, hend⟩⟩
  · exact ⟨hchar, .inl hend⟩
  · exact ⟨hchar, .inr ⟨hin, .inl hend⟩⟩

/-- The end of the text is the last token. -/
theorem streamEnd_leads (hs : s.Marked origin c) (hrest : c.rest = []) {q : Position}
    (hq : Reaches origin q []) (hle : q ≤ c.position) :
    streamEnd.Leads s fun _ => Lexer.Proceeds origin c := by
  rw [streamEnd]
  refine Leads.bind (P := fun _ s' => ∃ c', s'.Marked origin c' ∧ c'.rest = [] ∧ q ≤ c'.position)
    (leads_modify ?_) fun _ s₁ ⟨c', hs₁, hrest', hle'⟩ => leads_get_bind ?_
  · dsimp only
    obtain rfl := hs.awaits.cursor
    split
    · exact ⟨_, hs, hrest, hle⟩
    · have hnewline : s.cursor.position ≤ ⟨s.cursor.position.line + 1, 0⟩ :=
        .inl (Nat.lt_succ_self _)
      exact ⟨_, hs.move ⟨hnewline, Nat.le_refl _⟩, hrest, Position.le_trans hle hnewline⟩
  dsimp only
  refine leads_ite (fun _ => leads_fail_bind) fun _ => ?_
  refine Leads.bind (P := fun _ => Lexer.Awaits origin c' c'.position .begun)
    (leads_set (hs₁.awaits_outer.forget ?_ (.inl nofun))) fun _ s₂ hs₂ => ?_
  · show (none :: s₁.outer.map fun _ => none).reduceOption.Sublist s₁.outer.reduceOption
    simp [List.reduceOption]
  refine (keeps_unroll (by simp)).bind hs₂ fun _ s₃ hs₃ => ?_
  have hend : Token.IsPlaced origin c' c'.position ⟨s₁.cursor.position, .streamEnd⟩ := by
    rw [hs₁.awaits.cursor]
    exact ⟨trivial, Position.le_refl _, Position.le_refl _, trivial⟩
  have hpush := pushLast_leads hs₃ hend
  refine leads_modify ⟨c', .inl (hpush _ rfl), .inr ⟨hrest', q, hq, hle'⟩, .inl ?_⟩
  simp [Lexer.ended?]

theorem next_leads (hs : s.Marked origin c) (hc : c.Follows origin) (hnul : '\x00' ∉ origin.rest) :
    next.Leads s fun _ => Lexer.Proceeds origin c := by
  rw [next]
  refine skipGap_leads.bind ?_
  rintro _ _ ⟨c', keyAllowed, rfl, h, hblank, hbreak, hhash⟩
  rw [hs.awaits.cursor] at h
  have hs₀ := hs.move h.isBehind
  have hs₁ : { s with cursor := c', keyAllowed }.Marked origin c' :=
    { hs₀ with awaits := { hs₀.awaits with } }
  -- Behind the gap the text has come to its end, or there is a character that can be read.
  have hc' : c'.Follows origin := hc.trans h
  have hproceeds : ∀ s' : Lexer, s'.Proceeds origin c' → s'.Proceeds origin c := by
    rintro s' ⟨c'', hs'', hc'', hend | hless⟩
    · exact ⟨c'', hs'', hc'', .inl hend⟩
    · exact ⟨c'', hs'', hc'', .inr (Nat.lt_of_lt_of_le hless h.suffix.length_le)⟩
  refine (dropStale_leads (.inl hs₁)).bind fun _ s₂ ⟨hs₂, _, hfresh⟩ => ?_
  refine leads_cursor_bind hs₂.awaits.cursor ?_
  have hcolumn : s₂.outer = [] → ∀ k ∈ s₂.candidate, k.position.column ≤ c'.column := by
    intro houter k hk
    have hle := (hs₂.awaits.fits k (Lexer.mem_candidates hk)).le
    have hline := hfresh houter k hk
    rw [Position.le_iff] at hle
    exact (hle.resolve_left (Nat.not_lt.2 hline)).2
  by_cases hend : c'.next = '\x00'
  · obtain ⟨hrest, q, hq, hle⟩ : c'.rest = [] ∧ ∃ q, Reaches origin q [] ∧ q ≤ c'.position := by
      rcases hc' with hagrees | hfollows
      · have hrest := hagrees.rest_eq_nil hnul hend
        exact ⟨hrest, c'.position, hrest ▸ hagrees, Position.le_refl _⟩
      · exact hfollows
    refine (unroll_leads hs₂ hcolumn).bind fun _ s₃ ⟨hs₃, _⟩ => ?_
    refine leads_get_bind ?_
    dsimp only
    rw [hs₃.awaits.cursor, if_pos hend]
    exact (streamEnd_leads hs₃ hrest hq hle).mono fun _ => hproceeds
  · have hnext : isLineEnd c'.next = false := by
      rw [isLineEnd, hbreak, Bool.false_or]
      exact decide_eq_false hend
    have hagrees : c'.Agrees origin := by
      rcases hc' with hagrees | ⟨hrest, -⟩
      · exact hagrees
      · exact absurd (by rw [Cursor.next, Cursor.look, hrest]; rfl) hend
    refine (unroll_leads hs₂ hcolumn).bind fun _ s₃ ⟨hs₃, hroom⟩ => ?_
    refine leads_get_bind ?_
    dsimp only
    rw [hs₃.awaits.cursor, if_neg hend]
    refine Leads.mono (P := fun _ => Lexer.Proceeds origin c') ?_ fun _ => hproceeds
    refine leads_ite (fun _ => directive_leads hs₃ hagrees hnext) fun _ => ?_
    refine leads_ite (fun hmarker => ?_) fun hstart => ?_
    · have hkind : Token.IsPlaced origin c' c'.position ⟨c'.position, .documentStart⟩ :=
        ⟨trivial, Position.le_refl _, Position.le_refl _, trivial⟩
      refine (documentMarker_leads hs₃ hkind).mono fun _ s₄ hs₄ => ?_
      exact proceeds_of_follows (.inl hs₄) hagrees hnext (agrees_advance_marker rfl hmarker).follows
    refine leads_ite (fun hmarker => documentEnd_leads hs₃ hagrees hmarker) fun hmarkerEnd => ?_
    refine leads_ite (fun _ => leads_fail) fun _ => ?_
    refine content_leads hs₃ hagrees hnext hroom hnul ?_ hblank hhash
    rw [Cursor.atDocumentMarker, Bool.of_not_eq_true hstart, Bool.of_not_eq_true hmarkerEnd]
    rfl

theorem foldl_min_mem (n : Nat) (ns : List Nat) : ns.foldl min n ∈ n :: ns := by
  induction ns generalizing n with
  | nil => exact List.mem_singleton_self n
  | cons m ns ih =>
    rw [List.foldl_cons]
    rcases List.mem_cons.1 (ih (min n m)) with h | h
    · rw [h, Nat.min_def]
      split <;> simp
    · exact List.mem_cons_of_mem _ (List.mem_cons_of_mem _ h)

/-- What is settled ends in front of a candidate, or it is all that has been read. -/
theorem settleTokens_leads (hs : s.Marked origin c) : settleTokens.Leads s fun _ s' =>
    s'.Marked origin c ∧ s'.tokens = s.tokens ∧
      KeysFollow origin (s'.tokens.toList.take s'.settled) := by
  refine leads_modify ⟨{ hs with awaits := { hs.awaits with } }, rfl, ?_⟩
  dsimp only
  have hmem := foldl_min_mem s.tokens.size
    ((s.candidate :: s.outer).filterMap (·.map Candidate.number))
  generalize ((s.candidate :: s.outer).filterMap (·.map Candidate.number)).foldl min
    s.tokens.size = n at *
  rcases List.mem_cons.1 hmem with rfl | hmem
  · rw [← Array.length_toList, List.take_length]
    exact hs.awaits.keys
  · obtain ⟨o, ho, hn⟩ := List.mem_filterMap.1 hmem
    obtain ⟨k, rfl, rfl⟩ := Option.map_eq_some_iff.1 hn
    exact (hs.awaits.fits k (List.reduceOption_mem_iff.2 ho)).keys

/-- A step leaves all marked, and settled tokens that are followed by the keys they need. -/
theorem step_leads (hs : s.Marked origin c) (hc : c.Follows origin) (hnul : '\x00' ∉ origin.rest) :
    step.Leads s fun _ s' => KeysFollow origin (s'.tokens.toList.take s'.settled) ∧
      ∃ c', s'.Marked origin c' ∧ c'.Follows origin ∧
        (s'.ended?.isSome ∨ c'.rest.length < c.rest.length) := by
  rw [step]
  refine (next_leads hs hc hnul).bind fun _ s₁ ⟨c', hs₁, hc', hless⟩ => ?_
  refine (dropStale_leads hs₁).bind fun _ s₂ ⟨hs₂, htokens, _⟩ => ?_
  refine (settleTokens_leads hs₂).mono fun _ s₃ ⟨hs₃, htokens', hsettled⟩ => ?_
  refine ⟨hsettled, c', hs₃, hc', ?_⟩
  rwa [Lexer.ended?, htokens', htokens]

end Lex

/-! ## All readings -/

/-- What is known of the tokens of a text: they are marked, the keys that they need follow, and the
last of them is where they end, behind all that can be shown. -/
structure TokenStream.IsMarked (origin : Cursor) (stream : TokenStream) : Prop where
  tokens : ∀ t ∈ stream.tokens, t.IsMarked origin
  keys : KeysFollow origin stream.tokens
  last : ∀ p, stream.ending = .ok p → ∀ t ∈ stream.tokens.getLast?, t.position = p

theorem mem_back?_of_ended {p : Position} (h : s.ended? = some p) :
    ∃ t ∈ s.tokens.back?, t.position = p := by
  rw [Lexer.ended?] at h
  split at h
  · next t ht =>
    rw [Option.ite_none_right_eq_some, Option.some.injEq] at h
    exact ⟨t, ht, h.2⟩
  · cases h

/-- If there is fuel for what is left of the text, then it is read to its end, and all tokens are
marked. -/
theorem isMarked_of_run {fuel : Nat} (hs : s.Marked origin c) (hc : c.Follows origin)
    (hsettled : KeysFollow origin (s.tokens.toList.take s.settled)) (hnul : '\x00' ∉ origin.rest)
    (hfuel : c.rest.length < fuel) : (s.run fuel).IsMarked origin := by
  induction fuel generalizing s c with
  | zero => exact absurd hfuel (Nat.not_lt_zero _)
  | succ fuel ih =>
    have hstep := Lex.step_leads hs hc hnul
    rw [Lexer.run]
    split
    · have htake : (s.tokens.take s.settled).toList = s.tokens.toList.take s.settled := by
        rw [Array.take_eq_extract, Array.toList_extract, List.extract_eq_take_drop]
        rfl
      refine ⟨fun t ht => hs.awaits.tokens t ?_, htake ▸ hsettled, nofun⟩
      rw [htake] at ht
      exact Array.mem_toList_iff.1 (List.mem_of_mem_take ht)
    · next s' hrun =>
      obtain ⟨hsettled', c', hs', hc', hless⟩ := hstep _ hrun
      dsimp only at hsettled' hs' hless
      split
      · next p hp =>
        obtain ⟨last, hlast, rfl⟩ := mem_back?_of_ended hp
        refine ⟨fun t ht => hs'.awaits.tokens t (Array.mem_toList_iff.1 ht), hs'.awaits.keys, ?_⟩
        rintro _ ⟨⟩ t ht
        rw [Array.getLast?_toList, Option.mem_def.1 hlast] at ht
        cases ht
        rfl
      · next hnone =>
        rw [hnone] at hless
        have hlt := hless.resolve_left (by simp)
        exact ih hs' hc' hsettled' (by omega)

theorem not_mem_rest_ofText (text : String) : '\x00' ∉ (Cursor.ofText text).rest := by
  intro h
  have hne := List.mem_takeWhile_imp h
  simp at hne

/-- Every token of a text is marked where it stands, and the end of the text is behind all that can
be shown. -/
theorem TokenStream.isMarked_ofText (text : String) :
    (TokenStream.ofText text).IsMarked (Cursor.ofText text) := by
  have hs : ({ cursor := Cursor.ofText text } : Lexer).Awaits (Cursor.ofText text)
      (Cursor.ofText text) (Cursor.ofText text).position .begun :=
    ⟨rfl, fun _ ht => absurd ht (Array.not_mem_empty _), fun _ ht => absurd ht
      (Array.not_mem_empty _), trivial, List.forall_mem_nil _, .nil, List.forall_mem_nil _⟩
  exact isMarked_of_run (hs.marked (Position.le_refl _)) (Cursor.agrees_refl _).follows trivial
    (not_mem_rest_ofText text) (Nat.lt_succ_self _)

end TestScript.Yaml
