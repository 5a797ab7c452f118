import TestScript.Proofs.Yaml.Cursors
import TestScript.Yaml.Scalar.Block
import TestScript.Yaml.Scalar.Plain
import TestScript.Yaml.Scalar.Quoted
import TestScript.Yaml.Token.Property

/-!
# Readers leave a cursor that agrees

Properties, directives and scalars are read by steps over characters of a line and over the ends of
lines. So a cursor that agrees with the text when a reader begins agrees with it when the reader
ends. Behind a block scalar it may stand at the end of the text with a column that is too large.
-/

namespace TestScript.Yaml

variable {origin : Cursor} {c : Cursor}

/-- A class of characters that none of the three line ends is in. -/
def NoLineEnds (p : Char → Bool) : Prop :=
  ∀ d ∈ ['\n', '\r', '\x00'], p d = false

instance (p : Char → Bool) : Decidable (NoLineEnds p) :=
  List.decidableBAll (p · = false) ['\n', '\r', '\x00']

theorem NoLineEnds.isLineEnd {p : Char → Bool} (hp : NoLineEnds p) {d : Char} (hd : p d = true) :
    isLineEnd d = false := by
  by_contra hend
  rw [Bool.not_eq_false, Yaml.isLineEnd, isBreak, Bool.or_eq_true, Bool.or_eq_true,
    decide_eq_true_eq, decide_eq_true_eq, decide_eq_true_eq, or_assoc] at hend
  have hmem : d ∈ ['\n', '\r', '\x00'] := by simpa using hend
  rw [hp d hmem] at hd
  cases hd

theorem NoLineEnds.isBreak {p : Char → Bool} (hp : NoLineEnds p) {d : Char} (hd : p d = true) :
    isBreak d = false :=
  isBreak_of_isLineEnd (hp.isLineEnd hd)

/-! ## Properties and directives -/

namespace Property

theorem noLineEnds_isAnchorChar : NoLineEnds isAnchorChar := by
  decide

theorem noLineEnds_isNameChar : NoLineEnds isNameChar := by
  decide

theorem noLineEnds_isUriChar : NoLineEnds isUriChar := by
  decide

theorem noLineEnds_isTagChar : NoLineEnds isTagChar := by
  decide

theorem noLineEnds_isHexDigit : NoLineEnds isHexDigit := by
  decide

theorem noLineEnds_isDigit : NoLineEnds Char.isDigit := by
  decide

theorem anchorName_yields (c : Cursor) :
    Yields (anchorName c) fun r => r.2.Agrees (c.advance 1) := by
  have hspan : ((c.advance 1).span isAnchorChar).2.Agrees (c.advance 1) :=
    (Cursor.agrees_refl _).span fun _ hd => noLineEnds_isAnchorChar.isBreak hd
  rw [anchorName]
  dsimp only
  split
  · exact yields_throw
  · exact yields_pure hspan

/-- A percent sign and two digits stand on one line. -/
theorem agrees_advance_octet {n : Nat} (h : c.Agrees origin) (hoctet : octet? c.rest = some n) :
    (c.advance 3).Agrees origin := by
  unfold octet? at hoctet
  split at hoctet
  · next a b cs hrest =>
    rw [Option.ite_none_right_eq_some, Bool.and_eq_true] at hoctet
    obtain ⟨⟨ha, hb⟩, -⟩ := hoctet
    refine h.advance (by simp [hrest]) fun d hd => ?_
    rw [hrest] at hd
    simp only [List.take_succ_cons, List.take_zero, List.mem_cons, List.not_mem_nil, or_false]
      at hd
    rcases hd with rfl | rfl | rfl
    · rfl
    · exact noLineEnds_isHexDigit.isBreak ha
    · exact noLineEnds_isHexDigit.isBreak hb
  · cases hoctet

theorem trailingOctets_yields {count code : Nat} (h : c.Agrees origin) :
    Yields (trailingOctets count code c) fun r => r.2.Agrees origin := by
  induction count generalizing code c with
  | zero => exact yields_pure h
  | succ count ih =>
    rw [trailingOctets]
    split
    · exact yields_throw
    · next n hn =>
      split
      · exact ih (agrees_advance_octet h hn)
      · exact yields_throw

theorem escaped_yields (h : c.Agrees origin) : Yields (escaped c) (·.Agrees origin) := by
  rw [escaped]
  split
  · exact yields_throw
  · next lead hlead =>
    split
    · exact yields_throw
    · refine (trailingOctets_yields (agrees_advance_octet h hlead)).bind fun ⟨code, c'⟩ hr => ?_
      dsimp only
      split
      · exact yields_pure hr
      · exact yields_throw

theorem tagChars_yields {p : Char → Bool} {bound : List Char} (hp : NoLineEnds p)
    (h : c.Agrees origin) : Yields (tagChars p bound c) (·.Agrees origin) := by
  induction bound generalizing c with
  | nil => exact yields_pure h
  | cons _ bound ih =>
    rw [tagChars]
    split
    · exact yields_pure h
    · next hnext =>
      rw [Bool.not_eq_true, Bool.not_eq_false'] at hnext
      split
      · exact (escaped_yields h).bind fun _ h' => ih h'
      · exact ih (h.advance_one (hp.isLineEnd hnext))

theorem tagHandle_yields (c : Cursor) :
    Yields (tagHandle c) fun r => r.2.Agrees (c.advance 1) := by
  have hname : ((c.advance 1).span isNameChar).2.Agrees (c.advance 1) :=
    (Cursor.agrees_refl _).span fun _ hd => noLineEnds_isNameChar.isBreak hd
  rw [tagHandle]
  split
  · next hlook =>
    have hadvance : (c.advance 2).Agrees (c.advance 1) := by
      refine c.advance_agrees (n := 1) fun k hk => ?_
      obtain rfl : k = 0 := by omega
      rw [hlook]
      rfl
    refine (tagChars_yields noLineEnds_isUriChar hadvance).bind fun c' h' => ?_
    split
    · next hclose => exact yields_pure (h'.advance_one (by rw [hclose]; rfl))
    · exact yields_throw
  · generalize (c.advance 1).span isNameChar = r at *
    obtain ⟨name, c₁⟩ := r
    dsimp only at *
    have hmark : (if c₁.next = '!' then c₁.advance 1 else c₁).Agrees (c.advance 1) := by
      split
      · next hmark => exact hname.advance_one (by rw [hmark]; rfl)
      · exact hname
    refine (tagChars_yields noLineEnds_isTagChar hmark).bind fun c' h' => ?_
    exact yields_ite (fun _ => yields_throw_bind) fun _ => yields_pure h'

theorem tag_yields (inFlow : Bool) (c : Cursor) :
    Yields (tag inFlow c) fun r => r.2.Agrees (c.advance 1) ∧ ∃ handle, r.1 = .tag handle := by
  rw [tag]
  refine ((tagHandle_yields c).mapError _).bind fun ⟨handle, c'⟩ h' => ?_
  dsimp only
  split
  · exact yields_pure ⟨h', handle, rfl⟩
  · exact yields_throw

theorem versionPart_yields (h : c.Agrees origin) : Yields (versionPart c) (·.Agrees origin) := by
  have hdigits : (c.span Char.isDigit).2.Agrees origin :=
    h.span fun _ hd => noLineEnds_isDigit.isBreak hd
  rw [versionPart]
  dsimp only
  split
  · exact yields_throw
  · split
    · exact yields_throw
    · exact yields_pure hdigits

theorem version_yields (h : c.Agrees origin) : Yields (version c) (·.Agrees origin) := by
  rw [version]
  refine (versionPart_yields h).bind fun c' h' => ?_
  split
  · exact yields_throw_bind
  · next hdot =>
    rw [Decidable.not_not] at hdot
    exact versionPart_yields (h'.advance_one (by rw [hdot]; rfl))

theorem declaredHandle_yields (h : c.Agrees origin) :
    Yields (declaredHandle c) fun r => r.2.Agrees origin := by
  rw [declaredHandle]
  split
  · exact yields_throw_bind
  · next hmark =>
    rw [Decidable.not_not] at hmark
    have hname : ((c.advance 1).span isNameChar).2.Agrees origin :=
      (h.advance_one (by rw [hmark]; rfl)).span fun _ hd => noLineEnds_isNameChar.isBreak hd
    generalize (c.advance 1).span isNameChar = r at *
    obtain ⟨name, c'⟩ := r
    dsimp only at *
    split
    · next hclose => exact yields_pure (hname.advance_one (by rw [hclose]; rfl))
    · split
      · exact yields_pure hname
      · exact yields_throw

theorem expansion_yields (h : c.Agrees origin) : Yields (expansion c) (·.Agrees origin) := by
  rw [expansion]
  split
  · next hmark =>
    exact tagChars_yields noLineEnds_isUriChar (h.advance_one (by rw [hmark]; rfl))
  · split
    · exact tagChars_yields noLineEnds_isUriChar h
    · exact yields_throw

theorem declaration_yields (h : c.Agrees origin) :
    Yields (declaration c) fun r => r.2.Agrees origin := by
  rw [declaration]
  refine (declaredHandle_yields h).bind fun ⟨handle, c'⟩ h' => ?_
  refine (expansion_yields h'.skipAllBlanks).bind fun c'' h'' => ?_
  split
  · exact yields_pure h''
  · exact yields_throw

theorem directiveBody_yields {name : String} (h : c.Agrees origin) :
    Yields (directiveBody name c) fun r => r.2.Agrees origin ∧ (r.1 = .versionDirective ∨
      (∃ handle, r.1 = .tagDirective handle) ∨ r.1 = .otherDirective) := by
  rw [directiveBody]
  split
  · exact (version_yields h.skipAllBlanks).bind fun c' h' => yields_pure ⟨h', .inl rfl⟩
  · split
    · exact (declaration_yields h.skipAllBlanks).bind fun ⟨handle, c'⟩ h' =>
        yields_pure ⟨h', .inr (.inl ⟨handle, rfl⟩)⟩
    · exact yields_pure ⟨h.skipLine, .inr (.inr rfl)⟩

theorem directive_yields (c : Cursor) :
    Yields (directive c) fun r => r.2.Agrees (c.advance 1) ∧ (r.1 = .versionDirective ∨
      (∃ handle, r.1 = .tagDirective handle) ∨ r.1 = .otherDirective) := by
  have hname : ((c.advance 1).span isNameChar).2.Agrees (c.advance 1) :=
    (Cursor.agrees_refl _).span fun _ hd => noLineEnds_isNameChar.isBreak hd
  rw [directive]
  generalize (c.advance 1).span isNameChar = r at *
  obtain ⟨name, c'⟩ := r
  dsimp only at *
  split
  · exact yields_throw_bind
  · split
    · exact yields_throw_bind
    · refine ((directiveBody_yields hname).mapError _).bind fun ⟨kind, c₁⟩ h₁ => ?_
      refine (c₁.skipTrailing_yields).bind fun ⟨_, _, c₂⟩ h₂ => ?_
      dsimp only
      split
      · exact yields_pure ⟨(h₁.1.trans h₂.1).newline, h₁.2⟩
      · exact yields_throw

end Property

/-! ## Plain scalars -/

namespace Plain

theorem word_prefix (inFlow : Bool) (cs : List Char) : word inFlow cs <+: cs := by
  induction cs with
  | nil => exact List.prefix_rfl
  | cons c cs ih =>
    rw [word]
    split
    · exact List.nil_prefix
    · exact List.cons_prefix_cons.2 ⟨rfl, ih⟩

theorem isGap_of_mem_word {inFlow : Bool} {cs : List Char} {d : Char} (hd : d ∈ word inFlow cs) :
    isGap d = false := by
  induction cs with
  | nil => simp [word] at hd
  | cons c cs ih =>
    rw [word] at hd
    split at hd
    · simp at hd
    · next hends =>
      rcases List.mem_cons.1 hd with rfl | hd
      · rw [Bool.not_eq_true, endsWord, Bool.or_eq_false_iff, Bool.or_eq_false_iff] at hends
        exact hends.1.1
      · exact ih hd

theorem agrees_advance_word (inFlow : Bool) (h : c.Agrees origin) :
    (c.advance (word inFlow c.rest).length).Agrees origin := by
  have hprefix := word_prefix inFlow c.rest
  refine h.advance hprefix.length_le fun d hd => ?_
  rw [← List.prefix_iff_eq_take.1 hprefix] at hd
  exact isBreak_of_isLineEnd (isLineEnd_of_isGap (isGap_of_mem_word hd))

theorem gap_yields {start : Position} {need : Int} {bound : List Char} (h : c.Agrees origin)
    (f : Folding) : Yields (gap start need bound c f) fun r => r.1.Agrees origin := by
  induction bound generalizing c f with
  | nil => exact yields_pure h
  | cons _ bound ih =>
    rw [gap]
    split
    · next hblank =>
      have hskip : (c.skipBlanks 1).Agrees origin := h.advance_one (isLineEnd_of_isBlank hblank)
      split
      · exact ih hskip _
      · split
        · refine (c.skipTrailing_yields).bind fun ⟨_, _, c'⟩ h' => ?_
          exact yields_ite (fun _ => ih (h.trans h'.1) f) fun _ => yields_throw
        · exact ih hskip f
    · split
      · exact ih h.newline _
      · exact yields_pure h

/-- Words are put in front of the text that has been read, which stays as it is. The first word is
the one that stands at the cursor, unless the scalar ends there. -/
theorem words_yields {start : Position} {inFlow : Bool} {need : Int} {bound : List Char}
    (c : Cursor) (f : Folding) (acc : List Char) :
    Yields (words start inFlow need bound c f acc) fun r => r.2.Agrees c ∧ acc <:+ r.1 ∧
      (bound ≠ [] → c.atDocumentMarker = false → c.next ≠ '#' → word inFlow c.rest ≠ [] →
        r.2.Agrees (c.advance (word inFlow c.rest).length) ∧
        (word inFlow c.rest).reverse ++
          ((if c.fresh then f.acrossLines else f.blanks).reverse ++ acc) <:+ r.1) := by
  induction bound generalizing c f acc with
  | nil => exact yields_pure ⟨c.agrees_refl, List.suffix_rfl, fun h => absurd rfl h⟩
  | cons _ bound ih =>
    -- Behind a word comes a gap, and perhaps more words, or the scalar ends.
    have hrest : ∀ (c' : Cursor) (f' : Folding) (acc' : List Char),
        Yields (if isBlank c'.next || isBreak c'.next then do
            let r ← gap start need c'.rest c' f'
            if !inFlow && r.1.before need then pure (acc', r.1)
            else words start inFlow need bound r.1 r.2 acc'
          else pure (acc', c')) fun r => r.2.Agrees c' ∧ acc' <:+ r.1 := by
      intro c' f' acc'
      refine yields_ite (fun _ => ?_) fun _ => yields_pure ⟨c'.agrees_refl, List.suffix_rfl⟩
      refine (gap_yields c'.agrees_refl f').bind fun r₁ h₁ => ?_
      refine yields_ite (fun _ => yields_pure ⟨h₁, List.suffix_rfl⟩) fun _ => ?_
      exact (ih r₁.1 r₁.2 acc').mono fun r hr => ⟨h₁.trans hr.1, hr.2.1⟩
    rw [words]
    refine yields_ite (fun hend => ?_) fun hend => ?_
    · refine yields_pure ⟨c.agrees_refl, List.suffix_rfl, fun _ hmarker hhash => ?_⟩
      rw [hmarker, Bool.false_or, decide_eq_true_eq] at hend
      exact absurd hend hhash
    · refine yields_ite (fun _ => yields_throw) fun _ => ?_
      dsimp only
      generalize hread : (if (word inFlow c.rest).isEmpty then (acc, c, f) else
        ((word inFlow c.rest).reverse ++
            ((if c.fresh then f.acrossLines else f.blanks).reverse ++ acc),
          c.advance (word inFlow c.rest).length, ({} : Folding))) = read
      by_cases hword : word inFlow c.rest = []
      · rw [if_pos (List.isEmpty_iff.2 hword)] at hread
        subst hread
        exact (hrest c f acc).mono fun r hr => ⟨hr.1, hr.2, fun _ _ _ hne => absurd hword hne⟩
      · rw [if_neg (by rwa [List.isEmpty_iff])] at hread
        subst hread
        refine (hrest _ _ _).mono fun r hr => ⟨?_, ?_, fun _ _ _ _ => hr⟩
        · exact (agrees_advance_word inFlow c.agrees_refl).trans hr.1
        · exact ((List.suffix_append _ acc).trans (List.suffix_append _ _)).trans hr.2

/-- A word begins with the character at the cursor. -/
theorem word_eq_cons {inFlow : Bool} (hword : endsWord inFlow c.next (c.look 1) = false) :
    ∃ cs, c.rest = c.next :: cs ∧ word inFlow c.rest = c.next :: word inFlow cs := by
  have hgap : isGap c.next = false := by
    rw [endsWord, Bool.or_eq_false_iff, Bool.or_eq_false_iff] at hword
    exact hword.1.1
  obtain ⟨cs, hrest⟩ := Cursor.rest_eq_of_next (ne_nul_of_isLineEnd (isLineEnd_of_isGap hgap))
  have hlook : c.look 1 = cs.headD '\x00' := by
    rw [Cursor.look, hrest]
    cases cs <;> rfl
  refine ⟨cs, hrest, ?_⟩
  rw [hrest, word, ← hlook, if_neg (by rw [hword]; exact Bool.false_ne_true)]

/-- A plain scalar begins with the character at the cursor. -/
theorem read_yields {inFlow : Bool} {need : Int} (hmarker : c.atDocumentMarker = false)
    (hhash : c.next ≠ '#') (hword : endsWord inFlow c.next (c.look 1) = false) :
    Yields (read inFlow need c) fun r =>
      r.2.Agrees c ∧ r.2.rest.length < c.rest.length ∧ r.1.toList.head? = some c.next := by
  obtain ⟨cs, hrest, hfirst⟩ := word_eq_cons hword
  have hblanks : (if c.fresh then ({} : Folding).acrossLines else ({} : Folding).blanks) = [] := by
    split <;> rfl
  rw [read]
  refine yields_ite (fun _ => yields_throw_bind) fun _ => ?_
  refine (words_yields c {} []).bind ?_
  rintro ⟨acc, c'⟩ h'
  obtain ⟨hagrees, hsuffix⟩ := h'.2.2 (by rw [hrest]; exact List.cons_ne_nil _ _) hmarker hhash
    (by rw [hfirst]; exact List.cons_ne_nil _ _)
  refine yields_pure ⟨h'.1, ?_, ?_⟩
  · have hlength := hagrees.suffix.length_le
    rw [Cursor.length_rest_advance, hfirst, hrest, List.length_cons, List.length_cons] at hlength
    rw [hrest, List.length_cons]
    exact Nat.lt_of_le_of_lt hlength (by omega)
  · rw [hblanks, hfirst, List.reverse_nil, List.append_nil, List.append_nil] at hsuffix
    obtain ⟨more, rfl⟩ := hsuffix
    simp

end Plain

/-! ## Quoted scalars -/

namespace Quoted

theorem escapeOf_of_isLineEnd {d : Char} (hd : isLineEnd d = true) : escapeOf d = .unknown := by
  rw [isLineEnd, isBreak, Bool.or_eq_true, Bool.or_eq_true, decide_eq_true_eq, decide_eq_true_eq,
    decide_eq_true_eq] at hd
  rcases hd with (rfl | rfl) | rfl <;> rfl

theorem escape_yields (h : c.Agrees origin) (hnext : isLineEnd c.next = false) :
    Yields (escape c) fun r => r.2.Agrees origin := by
  have htwo : escapeOf (c.look 1) ≠ .unknown → (c.advance 2).Agrees origin := by
    intro hescape
    refine h.advance_two hnext ?_
    by_contra hend
    exact hescape (escapeOf_of_isLineEnd (Bool.of_not_eq_false hend))
  rw [escape]
  split
  · exact yields_throw
  · next d hd => exact yields_pure (htwo (by rw [hd]; nofun))
  · next n hn =>
    dsimp only
    refine yields_ite (fun hdigits => ?_) fun _ => yields_throw
    obtain ⟨hlength, hall⟩ := hdigits
    have hdrop : n ≤ (c.advance 2).rest.length := by
      rw [List.length_take] at hlength
      show n ≤ (c.rest.drop 2).length
      omega
    have hadvance : ((c.advance 2).advance n).Agrees origin :=
      (htwo (by rw [hn]; nofun)).advance hdrop fun d hd =>
        Property.noLineEnds_isHexDigit.isBreak (List.all_eq_true.1 hall d hd)
    split
    · rw [Cursor.advance_advance] at hadvance
      exact yields_pure hadvance
    · exact yields_throw

theorem word_yields {quote : Char} {bound : List Char} (hquote : isLineEnd quote = false)
    (h : c.Agrees origin) (acc : List Char) :
    Yields (word quote bound c acc) fun r => r.2.2.Agrees origin := by
  induction bound generalizing c acc with
  | nil => exact yields_pure h
  | cons _ bound ih =>
    rw [word]
    refine yields_ite (fun _ => yields_pure h) fun hgap => ?_
    have hnext : isLineEnd c.next = false :=
      isLineEnd_of_isGap (Bool.of_not_eq_true hgap)
    refine yields_ite (fun _ => ?_) fun _ => ?_
    · refine yields_ite (fun htwice => ?_) fun _ => yields_pure h
      rw [Bool.and_eq_true, decide_eq_true_eq, decide_eq_true_eq] at htwice
      exact ih (h.advance_two hnext (by rw [htwice.2]; exact hquote)) _
    · refine yields_ite (fun _ => ?_) fun _ => ih (h.advance_one hnext) _
      refine yields_ite (fun _ => yields_pure (h.advance_one hnext).newline) fun _ => ?_
      exact (escape_yields h hnext).bind fun ⟨d, c'⟩ h' => ih h' _

theorem gap_yields {indent : Int} {bound : List Char} (h : c.Agrees origin) (later : Bool)
    (f : Folding) : Yields (gap indent bound c later f) fun r => r.1.Agrees origin := by
  induction bound generalizing c later f with
  | nil => exact yields_pure h
  | cons _ bound ih =>
    rw [gap]
    refine yields_ite (fun hblank => ?_) fun _ => ?_
    · have hskip : (c.skipBlanks 1).Agrees origin := h.advance_one (isLineEnd_of_isBlank hblank)
      refine yields_ite (fun _ => ih hskip _ _) fun _ => ?_
      exact yields_ite (fun _ => yields_throw) fun _ => ih hskip _ _
    · exact yields_ite (fun _ => ih h.newline _ _) fun _ => yields_pure h

/-- The words end in front of the closing quote. -/
theorem words_yields {start : Position} {quote : Char} {indent : Int} {bound : List Char}
    (hquote : isLineEnd quote = false) (h : c.Agrees origin) (acc : List Char) :
    Yields (words start quote indent bound c acc) fun r =>
      r.2.Agrees origin ∧ r.2.next = quote := by
  induction bound generalizing c acc with
  | nil => exact yields_throw
  | cons _ bound ih =>
    rw [words]
    refine yields_ite (fun _ => yields_throw) fun _ => ?_
    refine yields_ite (fun _ => yields_throw) fun _ => ?_
    refine yields_ite (fun _ => yields_throw) fun _ => ?_
    refine ((word_yields hquote h acc).mapError _).bind fun ⟨acc', joined, c'⟩ h' => ?_
    refine yields_ite (fun hclose => yields_pure ⟨h', hclose⟩) fun _ => ?_
    exact (gap_yields h' joined {}).bind fun ⟨c'', later, f⟩ h'' => ih h'' _

theorem read_yields {inFlow : Bool} {indent : Int} (hnext : isLineEnd c.next = false) :
    Yields (read inFlow indent c) fun r => r.2.Agrees (c.advance 1) := by
  rw [read]
  refine (words_yields hnext (Cursor.agrees_refl _) []).bind fun ⟨acc, c'⟩ h' => ?_
  have hclose : (c'.advance 1).Agrees (c.advance 1) :=
    h'.1.advance_one (by rw [h'.2]; exact hnext)
  refine ((c'.advance 1).skipTrailing_yields).bind fun ⟨_, _, c''⟩ h'' => ?_
  exact yields_ite (fun _ => yields_pure (hclose.trans h''.1)) fun _ => yields_throw

end Quoted

/-! ## Block scalars -/

namespace Block

theorem digit_yields {start : Position} (h : c.Agrees origin) :
    Yields (digit start c) fun r => r.2.Agrees origin := by
  rw [digit]
  refine yields_ite (fun _ => yields_throw) fun _ => ?_
  refine yields_ite (fun hdigit => ?_) fun _ => yields_pure h
  exact yields_pure (h.advance_one (Property.noLineEnds_isDigit.isLineEnd hdigit))

theorem isLineEnd_of_chomping? {d : Char} {sign : Chomping} (h : chomping? d = some sign) :
    isLineEnd d = false := by
  rw [chomping?] at h
  split at h
  · next hd => rw [hd]; rfl
  · split at h
    · next hd => rw [hd]; rfl
    · cases h

theorem header_yields {start : Position} (h : c.Agrees origin) :
    Yields (header start c) fun r => r.2.2.Agrees origin := by
  rw [header]
  split
  · next sign hsign =>
    have hadvance := h.advance_one (isLineEnd_of_chomping? hsign)
    exact (digit_yields hadvance).bind fun ⟨n, c'⟩ h' => yields_pure h'
  · refine (digit_yields h).bind fun ⟨n, c'⟩ h' => ?_
    dsimp only
    split
    · next sign hsign =>
      have hchomping : chomping? c'.next = some sign := by
        split at hsign
        · cases hsign
        · exact hsign
      exact yields_pure (h'.advance_one (isLineEnd_of_chomping? hchomping))
    · exact yields_pure h'

theorem agrees_skipSpaces {n : Nat} (h : c.Agrees origin) (hn : n ≤ spaces c) :
    (c.skipBlanks n).Agrees origin := by
  obtain ⟨tail, htail⟩ := List.takeWhile_prefix (· = ' ') (l := c.rest)
  have htake : c.rest.take n = (c.rest.takeWhile (· = ' ')).take n :=
    (congrArg (List.take n) htail).symm.trans (List.take_append_of_le_length hn)
  refine h.advance (hn.trans (List.takeWhile_prefix _).length_le) fun d hd => ?_
  rw [htake] at hd
  have hspace : decide (d = ' ') = true :=
    List.mem_takeWhile_imp (p := (· = ' ')) (List.mem_of_mem_take hd)
  rw [of_decide_eq_true hspace]
  rfl

theorem length_rest_skipBlanks (c : Cursor) (n : Nat) :
    (c.skipBlanks n).rest.length ≤ c.rest.length := by
  show (c.rest.drop _).length ≤ _
  rw [List.length_drop]
  exact Nat.sub_le _ _

theorem isBreak_next_of_length_le {bound : List Char} (hbound : bound = [])
    (h : c.rest.length ≤ bound.length) : isBreak c.next = false := by
  have hnil : c.rest = [] := List.length_eq_zero_iff.1 (by simpa [hbound] using h)
  rw [Cursor.next, Cursor.look, hnil]
  rfl

/-- Behind the empty lines no line ends. -/
theorem skipEmptyLines_spec {indent : Nat} {bound : List Char} (h : c.Agrees origin)
    (hbound : c.rest.length ≤ bound.length) (breaks : Nat) :
    (skipEmptyLines indent bound c breaks).1.Agrees origin ∧
      isBreak (skipEmptyLines indent bound c breaks).1.next = false := by
  induction bound generalizing c breaks with
  | nil => exact ⟨h, isBreak_next_of_length_le rfl hbound⟩
  | cons _ bound ih =>
    have hindentation : (skipIndentation indent c).Agrees origin :=
      agrees_skipSpaces h (Nat.min_le_left _ _)
    have hlength : (skipIndentation indent c).rest.length ≤ c.rest.length :=
      length_rest_skipBlanks c _
    rw [skipEmptyLines]
    split
    · next hbreak =>
      have hnewline := Cursor.length_rest_newline_lt hbreak
      refine ih hindentation.newline ?_ _
      rw [List.length_cons] at hbound
      omega
    · next hbreak => exact ⟨hindentation, Bool.of_not_eq_true hbreak⟩

theorem skipLeadingLines_spec {bound : List Char} (h : c.Agrees origin)
    (hbound : c.rest.length ≤ bound.length) (breaks widest : Nat) :
    (skipLeadingLines bound c breaks widest).1.Agrees origin ∧
      isBreak (skipLeadingLines bound c breaks widest).1.next = false := by
  induction bound generalizing c breaks widest with
  | nil => exact ⟨h, isBreak_next_of_length_le rfl hbound⟩
  | cons _ bound ih =>
    have hspaces : (c.skipBlanks (spaces c)).Agrees origin := agrees_skipSpaces h (Nat.le_refl _)
    have hlength := length_rest_skipBlanks c (spaces c)
    rw [skipLeadingLines]
    split
    · next hbreak =>
      have hnewline := Cursor.length_rest_newline_lt hbreak
      refine ih hspaces.newline ?_ _ _
      rw [List.length_cons] at hbound
      omega
    · next hbreak => exact ⟨hspaces, Bool.of_not_eq_true hbreak⟩

/-- Where no character of a line is left, the line ends. -/
theorem isLineEnd_next_advance (c : Cursor) :
    isLineEnd (c.advance (c.rest.takeWhile (! isLineEnd ·)).length).next = true := by
  have hdrop : (c.advance (c.rest.takeWhile (! isLineEnd ·)).length).rest =
      c.rest.dropWhile (! isLineEnd ·) :=
    (congrArg (List.drop _) List.takeWhile_append_dropWhile.symm).trans List.drop_left
  have hhead := List.head?_dropWhile_not (! isLineEnd ·) c.rest
  rw [Cursor.next, Cursor.look, hdrop]
  cases hrest : c.rest.dropWhile (! isLineEnd ·) with
  | nil => rfl
  | cons d ds =>
    rw [hrest, List.head?_cons] at hhead
    simpa using hhead

/-- Behind the lines of content the cursor agrees with the text, unless the text ends in the last of
them. -/
theorem content_follows {folded : Bool} {indent : Nat} {bound : List Char}
    (hnul : '\x00' ∉ origin.rest) (h : c.Agrees origin) (s : Seam) (acc : List Char) :
    (content folded indent bound c s acc).2.2.Follows origin := by
  induction bound generalizing c s acc with
  | nil => exact h.follows
  | cons _ bound ih =>
    rw [content]
    split
    · exact h.follows
    · have hline : (c.advance (c.rest.takeWhile (! isLineEnd ·)).length).Agrees origin :=
        h.advance_takeWhile fun d hd => isBreak_of_isLineEnd (by rwa [Bool.not_eq_true'] at hd)
      have hlineEnd := isLineEnd_next_advance c
      have hlength : (c.rest.takeWhile (! isLineEnd ·)).length ≤ c.rest.length :=
        (List.takeWhile_prefix _).length_le
      dsimp only
      generalize hn : (c.rest.takeWhile (! isLineEnd ·)).length = n at *
      split
      · next hend =>
        exact Cursor.Agrees.skipVerbatim hline hlength (hline.rest_eq_nil hnul hend)
      · next hend =>
        have hbreak : isBreak (c.skipVerbatim n).next = true := by
          rw [isLineEnd, Bool.or_eq_true, decide_eq_true_eq] at hlineEnd
          exact hlineEnd.resolve_right hend
        have hnewline : (c.skipVerbatim n).newline.Agrees origin :=
          Cursor.agrees_newline (c := c.skipVerbatim n) hline (.inl hbreak)
        have hbound := (Cursor.length_rest_newline_lt hbreak).le
        exact ih (skipEmptyLines_spec hnewline hbound 0).1 _ _

end Block
end TestScript.Yaml
