import TestScript.Proofs.Yaml.Readers
import TestScript.Yaml.Token

/-!
# The first lines of scalars

A scalar may run over several lines, and what its text has of them is not what they hold: line ends
are folded, quotes are doubled, and characters are escaped. But its first line is seen at the place
where the scalar is marked. `Opens` says so without a reader: the line spells a beginning of the
text, and if there is more text, then the line ends and the rest begins with what has become of its
end. Each reader of scalars keeps to it (`Plain.read_opens`, `Quoted.read_opens`,
`Block.read_opens`).

A block scalar without a line of text has nothing that could be seen. Where the text ends behind its
header, it is marked at the header, and otherwise at whatever stands behind it.
-/

namespace TestScript.Yaml

open Quoted (escapeOf charOfNat? ofHex)

/-! ## How scalars are written -/

/-- The quote that a style is written in. -/
def Style.quote? : Style → Option Char
  | .singleQuoted => some '\x27'
  | .doubleQuoted => some '\x22'
  | .plain | .literal | .folded => none

/-- The indicator that a block scalar begins with. -/
def Style.indicator? : Style → Option Char
  | .literal => some '|'
  | .folded => some '>'
  | .plain | .singleQuoted | .doubleQuoted => none

/-- Characters between quotes, on one line, spell a text. Between single quotes a quote is written
twice, and between double quotes a backslash begins an escape. -/
inductive Spells (quote : Char) : (raw text : List Char) → Prop
  | nil : Spells quote [] []
  | char {c : Char} {raw text : List Char} (hc : isLineEnd c = false) (hquote : c ≠ quote)
    (hescape : quote = '\x22' → c ≠ '\\') (h : Spells quote raw text) :
    Spells quote (c :: raw) (c :: text)
  | twice {raw text : List Char} (hquote : quote = '\x27') (h : Spells quote raw text) :
    Spells quote (quote :: quote :: raw) (quote :: text)
  | escape {e c : Char} {raw text : List Char} (hquote : quote = '\x22')
    (he : escapeOf e = .char c) (h : Spells quote raw text) :
    Spells quote ('\\' :: e :: raw) (c :: text)
  | hex {e c : Char} {n : Nat} {digits raw text : List Char} (hquote : quote = '\x22')
    (he : escapeOf e = .hex n) (hlength : digits.length = n) (hdigits : digits.all isHexDigit)
    (hc : charOfNat? (ofHex digits) = some c) (h : Spells quote raw text) :
    Spells quote ('\\' :: e :: (digits ++ raw)) (c :: text)

/-- The end of a line has become a space or line feeds in front of what follows. -/
def IsFold (more : List Char) : Prop :=
  more.head? = some ' ' ∨ more.head? = some '\n'

/-- There are only blanks. -/
def IsBlanks (cs : List Char) : Prop :=
  ∀ c ∈ cs, isBlank c = true

/-- A line opens a scalar with a text: it holds the whole scalar, or it ends within it. -/
inductive Opens : Style → (text line : List Char) → Prop
  | plain {text behind : List Char} (htext : text ≠ []) : Opens .plain text (text ++ behind)
  | plainFolded {text more blanks : List Char} (htext : text ≠ []) (hmore : IsFold more)
    (hblanks : IsBlanks blanks) : Opens .plain (text ++ more) (text ++ blanks)
  | quoted {style : Style} {quote : Char} {raw text behind : List Char}
    (hstyle : style.quote? = some quote) (h : Spells quote raw text) :
    Opens style text (quote :: (raw ++ quote :: behind))
  | quotedFolded {style : Style} {quote : Char} {raw text more blanks : List Char}
    (hstyle : style.quote? = some quote) (h : Spells quote raw text) (hmore : IsFold more)
    (hblanks : IsBlanks blanks) : Opens style (text ++ more) (quote :: (raw ++ blanks))
  | quotedJoined {raw text more : List Char} (h : Spells '\x22' raw text) :
    Opens .doubleQuoted (text ++ more) ('\x22' :: (raw ++ ['\\']))
  | block {style : Style} {indicator : Char} {empty : Nat} {line more : List Char}
    (hstyle : style.indicator? = some indicator) (hline : line ≠ [])
    (hmore : more = [] ∨ IsFold more) :
    Opens style (List.replicate empty '\n' ++ line ++ more) line
  | header {style : Style} {indicator : Char} {empty : Nat} {behind : List Char}
    (hstyle : style.indicator? = some indicator) :
    Opens style (List.replicate empty '\n') (indicator :: behind)

/-- A block scalar that has no line of text. -/
def IsEmptyBlock (style : Style) (text : List Char) : Prop :=
  style.indicator?.isSome ∧ ∀ c ∈ text, c = '\n'

/-! ## The rest of a line -/

/-- What is left of the line, where this is left of the text. -/
def firstLine (rest : List Char) : List Char :=
  rest.takeWhile (! isLineEnd ·)

variable {c c' : Cursor}

theorem Cursor.newline_of_isBreak (h : isBreak c.next = true) :
    c.newline.fresh = true ∧ c.newline.line = c.line + 1 := by
  unfold newline
  split
  · exact ⟨rfl, rfl⟩
  · exact ⟨rfl, rfl⟩
  · exact ⟨rfl, rfl⟩
  · next hlf hcr =>
    have hne : c.next ≠ '\x00' := by
      rintro hnul
      rw [hnul] at h
      cases h
    obtain ⟨cs, hcs⟩ := rest_eq_of_next hne
    rw [isBreak, Bool.or_eq_true, decide_eq_true_eq, decide_eq_true_eq] at h
    rcases h with h | h
    · exact absurd (h ▸ hcs) (hlf cs)
    · exact absurd (h ▸ hcs) (hcr cs)

theorem firstLine_append {cs rest : List Char} (h : ∀ d ∈ cs, isLineEnd d = false) :
    firstLine (cs ++ rest) = cs ++ firstLine rest :=
  List.takeWhile_append_of_pos fun d hd => by rw [h d hd]; rfl

theorem firstLine_cons {d : Char} {cs : List Char} (h : isLineEnd d = false) :
    firstLine (d :: cs) = d :: firstLine cs :=
  List.takeWhile_cons_of_pos (by rw [h]; rfl)

theorem firstLine_of_isLineEnd (h : isLineEnd c.next = true) : firstLine c.rest = [] := by
  rw [Cursor.next, Cursor.look] at h
  cases hrest : c.rest with
  | nil => rfl
  | cons d cs =>
    rw [hrest] at h
    exact List.takeWhile_cons_of_neg (by simpa using h)

theorem firstLine_of_next (h : isLineEnd c.next = false) :
    firstLine c.rest = c.next :: firstLine (c.advance 1).rest := by
  obtain ⟨cs, hrest⟩ := Cursor.rest_eq_of_next (ne_nul_of_isLineEnd h)
  have hadvance : (c.advance 1).rest = cs := congrArg (List.drop 1) hrest
  rw [hadvance, ← firstLine_cons h, ← hrest]

theorem firstLine_of_look (h : isLineEnd c.next = false) (hlook : isLineEnd (c.look 1) = false) :
    firstLine c.rest = c.next :: c.look 1 :: firstLine (c.advance 2).rest := by
  have hnext : (c.advance 1).next = c.look 1 := Cursor.look_advance c 1 0
  rw [firstLine_of_next h, firstLine_of_next (c := c.advance 1) (by rwa [hnext]), hnext,
    Cursor.advance_advance]

/-! ## Spelling -/

section

variable {quote : Char} {raw raw' text text' : List Char}

theorem Spells.append (h : Spells quote raw text) (h' : Spells quote raw' text') :
    Spells quote (raw ++ raw') (text ++ text') := by
  induction h with
  | nil => exact h'
  | char hc hquote hescape _ ih => exact .char hc hquote hescape ih
  | twice hquote _ ih => exact .twice hquote ih
  | escape hquote he _ ih => exact .escape hquote he ih
  | hex hquote he hlength hdigits hc _ ih =>
    rw [List.cons_append, List.cons_append, List.append_assoc]
    exact .hex hquote he hlength hdigits hc ih

theorem isGap_of_quote? {style : Style} (h : style.quote? = some quote) : isGap quote = false := by
  cases style with
  | singleQuoted | doubleQuoted =>
    cases h
    rfl
  | plain | literal | folded => cases h

theorem isLineEnd_of_indicator? {style : Style} {d : Char} (h : style.indicator? = some d) :
    isLineEnd d = false := by
  cases style with
  | literal | folded =>
    cases h
    rfl
  | plain | singleQuoted | doubleQuoted => cases h

/-- Blanks spell themselves. -/
theorem spells_blanks (hquote : isBlank quote = false) {blanks : List Char}
    (h : IsBlanks blanks) : Spells quote blanks blanks := by
  induction blanks with
  | nil => exact .nil
  | cons c blanks ih =>
    obtain ⟨hc, hblanks⟩ := List.forall_mem_cons.1 h
    refine .char (isLineEnd_of_isBlank hc) ?_ ?_ (ih hblanks)
    · rintro rfl
      rw [hquote] at hc
      cases hc
    · rintro - rfl
      cases hc

end

theorem isFold_acrossLines {f : Folding} (h : f.broken = true) (more : List Char) :
    IsFold (f.acrossLines ++ more) := by
  rw [Folding.acrossLines, h]
  split
  · exact .inl rfl
  · next hmore =>
    obtain ⟨n, hn⟩ := Nat.exists_eq_succ_of_ne_zero fun h => hmore ⟨rfl, h⟩
    rw [hn]
    exact .inr rfl

theorem IsBlanks.append {cs cs' : List Char} (h : IsBlanks cs) (h' : IsBlanks cs') :
    IsBlanks (cs ++ cs') :=
  List.forall_mem_append.2 ⟨h, h'⟩

theorem isBlanks_nil : IsBlanks [] :=
  List.forall_mem_nil _

theorem isBlanks_singleton {d : Char} (h : isBlank d = true) : IsBlanks [d] :=
  List.forall_mem_singleton.2 h

/-! ## Plain scalars -/

namespace Plain

variable {start : Position} {inFlow : Bool} {need : Int} {bound : List Char}

/-- What becomes of the rest of a line behind some words: a part of it belongs to the text, and if
there is more text, then only blanks stand behind that part. -/
def Continues (rest text : List Char) : Prop :=
  ∃ line more behind, text = line ++ more ∧ rest = line ++ behind ∧
    (more = [] ∨ IsFold more ∧ IsBlanks behind)

theorem continues_nil (rest : List Char) : Continues rest [] :=
  ⟨[], [], rest, rfl, rfl, .inl rfl⟩

theorem Continues.append {rest text : List Char} (h : Continues rest text) (cs : List Char) :
    Continues (cs ++ rest) (cs ++ text) := by
  obtain ⟨line, more, behind, rfl, rfl, hmore⟩ := h
  exact ⟨cs ++ line, more, behind, by simp, by simp, hmore⟩

theorem continues_of_isFold {rest text : List Char} (hrest : IsBlanks rest) (h : IsFold text) :
    Continues rest text :=
  ⟨[], text, rest, rfl, rfl, .inr ⟨h, hrest⟩⟩

/-- No line has ended since the last word, and the blanks since then are known. -/
structure OnLine (c : Cursor) (f : Folding) : Prop where
  fresh : c.fresh = false
  broken : f.broken = false
  blanks : IsBlanks f.blanks

theorem isLineEnd_next_of_word (h : word inFlow c.rest ≠ []) : isLineEnd c.next = false := by
  rw [Cursor.next, Cursor.look]
  cases hrest : c.rest with
  | nil =>
    rw [hrest] at h
    exact absurd rfl h
  | cons d cs =>
    have hmem : d ∈ word inFlow (d :: cs) := by
      rw [hrest, word] at h
      rw [word]
      split at h
      · exact absurd rfl h
      · next hends =>
        rw [if_neg hends]
        exact List.mem_cons_self
    exact isLineEnd_of_isGap (isGap_of_mem_word hmem)

theorem firstLine_word (inFlow : Bool) (c : Cursor) : firstLine c.rest =
    word inFlow c.rest ++ firstLine (c.advance (word inFlow c.rest).length).rest := by
  obtain ⟨behind, hbehind⟩ := word_prefix inFlow c.rest
  have hdrop : (c.advance (word inFlow c.rest).length).rest = behind :=
    (congrArg (List.drop _) hbehind.symm).trans List.drop_left
  rw [hdrop, ← firstLine_append fun d hd => isLineEnd_of_isGap (isGap_of_mem_word hd), hbehind]

/-- A line has ended since the last word. -/
structure Below (c : Cursor) (f : Folding) : Prop where
  fresh : isLineEnd c.next = false → c.fresh = true
  broken : f.broken = true

theorem below_newline {f : Folding} (hbreak : isBreak c.next = true) (h : f.broken = true) :
    Below c.newline f :=
  ⟨fun _ => (Cursor.newline_of_isBreak hbreak).1, h⟩

theorem gap_below {f : Folding} (h : Below c f) :
    Yields (gap start need bound c f) fun r => Below r.1 r.2 := by
  induction bound generalizing c f with
  | nil => exact yields_pure h
  | cons _ bound ih =>
    rw [gap]
    refine yields_ite (fun hblank => ?_) fun _ => ?_
    · have hfresh : c.fresh = true := h.fresh (isLineEnd_of_isBlank hblank)
      rw [if_neg (by simp [hfresh])]
      refine yields_ite (fun _ => ?_) fun _ => ih ⟨fun _ => hfresh, h.broken⟩
      -- A comment behind a tab goes on to the end of the line.
      refine c.skipTrailing_yields.bind fun _ _ => yields_ite (fun hend => ?_) fun _ => ?_
      · exact ih ⟨fun hnext => absurd hend (by simp [hnext]), h.broken⟩
      · exact yields_throw
    · refine yields_ite (fun hbreak => ?_) fun _ => yields_pure h
      refine ih (below_newline hbreak ?_)
      split
      · exact h.broken
      · rfl

/-- The gap behind a word ends on the line of the word, and is kept, or below it. -/
theorem gap_line {f : Folding} (h : OnLine c f) :
    Yields (gap start need bound c f) fun r =>
      (OnLine r.1 r.2 ∧ r.2.blanks ++ firstLine r.1.rest = f.blanks ++ firstLine c.rest) ∨
        (Below r.1 r.2 ∧ IsBlanks (f.blanks ++ firstLine c.rest)) := by
  induction bound generalizing c f with
  | nil => exact yields_pure (.inl ⟨h, rfl⟩)
  | cons _ bound ih =>
    rw [gap]
    refine yields_ite (fun hblank => ?_) fun _ => ?_
    · rw [if_pos (by simp [h.fresh])]
      have hline : f.blanks ++ firstLine c.rest =
          (f.blank c.next).blanks ++ firstLine (c.skipBlanks 1).rest := by
        rw [firstLine_of_next (isLineEnd_of_isBlank hblank)]
        exact (List.append_assoc _ [c.next] _).symm
      rw [hline]
      exact ih ⟨h.fresh, h.broken, h.blanks.append (isBlanks_singleton hblank)⟩
    · refine yields_ite (fun hbreak => ?_) fun _ => yields_pure (.inl ⟨h, rfl⟩)
      rw [if_neg (by simp [h.fresh])]
      refine (gap_below (below_newline hbreak rfl)).mono fun r hr => .inr ⟨hr, ?_⟩
      rw [firstLine_of_isLineEnd (by rw [isLineEnd, hbreak]; rfl), List.append_nil]
      exact h.blanks

/-- Below the line of the last word more text begins with a fold. -/
theorem words_below {f : Folding} (h : Below c f) (acc : List Char) :
    Yields (words start inFlow need bound c f acc) fun r =>
      ∃ more, r.1 = more.reverse ++ acc ∧ (more = [] ∨ IsFold more) := by
  induction bound generalizing c f acc with
  | nil => exact yields_pure ⟨[], rfl, .inl rfl⟩
  | cons _ bound ih =>
    have hnothing : ∀ c' : Cursor, ∃ more, (acc, c').1 = more.reverse ++ acc ∧
        (more = [] ∨ IsFold more) := fun _ => ⟨[], rfl, .inl rfl⟩
    by_cases hend : c.atDocumentMarker = true ∨ c.next = '#'
    · rw [words, if_pos (by simpa using hend)]
      exact yields_pure (hnothing c)
    · rw [not_or, Bool.not_eq_true] at hend
      by_cases hword : word inFlow c.rest = []
      · rw [words, if_neg (by simp [hend])]
        refine yields_ite (fun _ => yields_throw) fun _ => ?_
        dsimp only
        rw [if_pos (List.isEmpty_iff.2 hword)]
        dsimp only
        refine yields_ite (fun _ => ?_) fun _ => yields_pure (hnothing c)
        refine (gap_below h).bind fun r hr => ?_
        exact yields_ite (fun _ => yields_pure (hnothing _)) fun _ => ih hr acc
      · refine (words_yields c f acc).mono fun r hr => ?_
        obtain ⟨-, more, hmore⟩ := hr.2.2 (List.cons_ne_nil _ _) hend.1 hend.2 hword
        have hnext : isLineEnd c.next = false := isLineEnd_next_of_word hword
        rw [if_pos (h.fresh hnext)] at hmore
        refine ⟨f.acrossLines ++ (word inFlow c.rest ++ more.reverse), ?_, .inr ?_⟩
        · rw [← hmore]
          simp
        · exact isFold_acrossLines h.broken _

/-- Behind a word comes a gap, and perhaps more words, or the scalar ends. -/
theorem rest_line (ih : ∀ {c : Cursor} {f : Folding} (acc : List Char), OnLine c f →
      Yields (words start inFlow need bound c f acc) fun r =>
        ∃ text, r.1 = text.reverse ++ acc ∧ Continues (f.blanks ++ firstLine c.rest) text)
    {f : Folding} (h : OnLine c f) (acc : List Char) :
    Yields (if isBlank c.next || isBreak c.next then do
        let r ← gap start need c.rest c f
        if !inFlow && r.1.before need then pure (acc, r.1)
        else words start inFlow need bound r.1 r.2 acc
      else pure (acc, c)) fun r =>
        ∃ text, r.1 = text.reverse ++ acc ∧ Continues (f.blanks ++ firstLine c.rest) text := by
  have hnothing : ∀ c' : Cursor, ∃ text, (acc, c').1 = text.reverse ++ acc ∧
      Continues (f.blanks ++ firstLine c.rest) text := fun _ => ⟨[], rfl, continues_nil _⟩
  refine yields_ite (fun _ => ?_) fun _ => yields_pure (hnothing c)
  refine (gap_line h).bind fun r hr => ?_
  refine yields_ite (fun _ => yields_pure (hnothing _)) fun _ => ?_
  rcases hr with ⟨hline, heq⟩ | ⟨hbelow, hblanks⟩
  · rw [← heq]
    exact ih acc hline
  · refine (words_below hbelow acc).mono fun r' ⟨more, hr', hmore⟩ => ⟨more, hr', ?_⟩
    rcases hmore with rfl | hfold
    · exact continues_nil _
    · exact continues_of_isFold hblanks hfold

/-- As long as no line has ended, what is read is what stands there. -/
theorem words_line {f : Folding} (h : OnLine c f ∨ f = {} ∧ word inFlow c.rest ≠ [])
    (acc : List Char) :
    Yields (words start inFlow need bound c f acc) fun r =>
      ∃ text, r.1 = text.reverse ++ acc ∧ Continues (f.blanks ++ firstLine c.rest) text := by
  induction bound generalizing c f acc with
  | nil => exact yields_pure ⟨[], rfl, continues_nil _⟩
  | cons _ bound ih =>
    have hrest := fun {c : Cursor} {f : Folding} (h : OnLine c f) (acc : List Char) =>
      rest_line (fun acc h => ih (.inl h) acc) h acc
    rw [words]
    refine yields_ite (fun _ => yields_pure ⟨[], rfl, continues_nil _⟩) fun _ => ?_
    refine yields_ite (fun _ => yields_throw) fun _ => ?_
    dsimp only
    generalize hread : (if (word inFlow c.rest).isEmpty then (acc, c, f) else _) = read
    by_cases hword : word inFlow c.rest = []
    · rw [if_pos (List.isEmpty_iff.2 hword)] at hread
      subst hread
      exact hrest (h.resolve_right fun hstart => hstart.2 hword) acc
    · have hblanks : (if c.fresh then f.acrossLines else f.blanks) = f.blanks := by
        rcases h with hline | ⟨rfl, -⟩
        · rw [if_neg (by simp [hline.fresh])]
        · split <;> rfl
      rw [if_neg (by rwa [List.isEmpty_iff]), hblanks] at hread
      subst hread
      refine (hrest ⟨rfl, rfl, isBlanks_nil⟩ _).mono ?_
      rintro r ⟨text, hr, htext⟩
      refine ⟨f.blanks ++ (word inFlow c.rest ++ text), by simp [hr], ?_⟩
      rw [firstLine_word inFlow c]
      exact (htext.append _).append _

/-- A plain scalar is opened by its line. -/
theorem read_opens (hmarker : c.atDocumentMarker = false)
    (hhash : c.next ≠ '#') (hword : endsWord inFlow c.next (c.look 1) = false) :
    Yields (read inFlow need c) fun r => Opens .plain r.1.toList (firstLine c.rest) := by
  have htext : Yields (read inFlow need c) fun r =>
      Continues (firstLine c.rest) r.1.toList := by
    obtain ⟨cs, -, hfirst⟩ := word_eq_cons hword
    have hne : word inFlow c.rest ≠ [] := by rw [hfirst]; exact List.cons_ne_nil _ _
    rw [read]
    refine yields_ite (fun _ => yields_throw_bind) fun _ => ?_
    refine (words_line (.inr ⟨rfl, hne⟩) []).bind ?_
    rintro r ⟨text, hr, htext⟩
    refine yields_pure ?_
    rw [hr]
    simpa using htext
  refine ((read_yields hmarker hhash hword).and htext).mono ?_
  rintro ⟨content, c'⟩ ⟨⟨-, -, hhead⟩, line, more, behind, hcontent, hline, hmore⟩
  have hgap : isGap c.next = false := by
    rw [endsWord, Bool.or_eq_false_iff, Bool.or_eq_false_iff] at hword
    exact hword.1.1
  have hne : line ≠ [] := by
    rintro rfl
    rw [hcontent, List.nil_append] at hhead
    rcases hmore with rfl | ⟨hspace | hfeed, -⟩
    · cases hhead
    · rw [hspace, Option.some.injEq] at hhead
      rw [← hhead] at hgap
      cases hgap
    · rw [hfeed, Option.some.injEq] at hhead
      rw [← hhead] at hgap
      cases hgap
  dsimp only
  rw [hcontent, hline]
  rcases hmore with rfl | ⟨hfold, hblanks⟩
  · rw [List.append_nil]
    exact .plain hne
  · exact .plainFolded hne hfold hblanks

end Plain

/-! ## Quoted scalars -/

namespace Quoted

variable {quote : Char} {bound : List Char}

/-- What is read between quotes is spelled by the line as far as it goes: up to the closing quote,
or up to the end of the line, which is folded or, between double quotes, may be escaped. -/
def Closes (quote : Char) (rest text : List Char) : Prop :=
  ∃ raw line more behind, text = line ++ more ∧ rest = raw ++ behind ∧ Spells quote raw line ∧
    (more = [] ∧ behind.head? = some quote ∨ IsFold more ∧ IsBlanks behind ∨
      quote = '\x22' ∧ behind = ['\\'])

theorem Closes.append {rest text raw line : List Char} (h : Closes quote rest text)
    (hline : Spells quote raw line) : Closes quote (raw ++ rest) (line ++ text) := by
  obtain ⟨raw', line', more, behind, rfl, rfl, hspells, hends⟩ := h
  exact ⟨raw ++ raw', line ++ line', more, behind, by simp, by simp, hline.append hspells, hends⟩

theorem closes_of_isFold {rest text : List Char} (hrest : IsBlanks rest) (h : IsFold text) :
    Closes quote rest text :=
  ⟨[], [], text, rest, rfl, rfl, .nil, .inr (.inl ⟨h, hrest⟩)⟩

/-- An escape spells its character. -/
theorem escape_spells (hnext : isLineEnd c.next = false) (hbackslash : c.next = '\\') :
    Yields (escape c) fun r => ∃ raw, firstLine c.rest = raw ++ firstLine r.2.rest ∧
      Spells '\x22' raw [r.1] := by
  have htwo : escapeOf (c.look 1) ≠ .unknown →
      firstLine c.rest = '\\' :: c.look 1 :: firstLine (c.advance 2).rest := by
    intro hescape
    rw [← hbackslash]
    refine firstLine_of_look hnext (Bool.of_not_eq_true fun hend => ?_)
    exact hescape (escapeOf_of_isLineEnd hend)
  rw [escape]
  split
  · exact yields_throw
  · next d hd =>
    have hknown : escapeOf (c.look 1) ≠ .unknown := by simp [hd]
    refine yields_pure ⟨['\\', c.look 1], htwo hknown, ?_⟩
    exact .escape rfl hd .nil
  · next n hn =>
    have hknown : escapeOf (c.look 1) ≠ .unknown := by simp [hn]
    dsimp only
    refine yields_ite (fun hdigits => ?_) fun _ => yields_throw
    obtain ⟨hlength, hall⟩ := hdigits
    split
    · next d hd =>
      have hspells : Spells '\x22' _ [d] := .hex rfl hn hlength hall hd .nil
      refine yields_pure ⟨_, ?_, hspells⟩
      have hdigits : firstLine (c.advance 2).rest =
          (c.rest.drop 2).take n ++ firstLine (c.advance (2 + n)).rest := by
        have hrest : (c.advance (2 + n)).rest = (c.rest.drop 2).drop n :=
          (List.drop_drop ..).symm
        rw [hrest, ← firstLine_append fun e he =>
          Property.noLineEnds_isHexDigit.isLineEnd (List.all_eq_true.1 hall e he),
          List.take_append_drop]
        rfl
      rw [htwo hknown, hdigits]
      simp
    · exact yields_throw

/-- What is read of a word is spelled by the line: up to a gap or a quote, or up to an escaped end
of the line. -/
def ReadsWord (quote : Char) (c : Cursor) (acc : List Char) (r : List Char × Bool × Cursor) :
    Prop :=
  ∃ raw text, r.1 = text.reverse ++ acc ∧ Spells quote raw text ∧
    (r.2.1 = false → firstLine c.rest = raw ++ firstLine r.2.2.rest) ∧
    (r.2.1 = true → quote = '\x22' ∧ firstLine c.rest = raw ++ ['\\'])

theorem readsWord_nil (quote : Char) (c : Cursor) (acc : List Char) :
    ReadsWord quote c acc (acc, false, c) :=
  ⟨[], [], rfl, .nil, fun _ => rfl, nofun⟩

theorem ReadsWord.cons {acc raw : List Char} {d : Char} {r : List Char × Bool × Cursor}
    (h : ReadsWord quote c' (d :: acc) r) (hline : firstLine c.rest = raw ++ firstLine c'.rest)
    (hraw : Spells quote raw [d]) : ReadsWord quote c acc r := by
  obtain ⟨raw', text, hr, hspells, hgoes, hjoined⟩ := h
  refine ⟨raw ++ raw', d :: text, by simp [hr], hraw.append hspells, fun h => ?_, fun h => ?_⟩
  · rw [hline, hgoes h, List.append_assoc]
  · rw [hline, (hjoined h).2, List.append_assoc]
    exact ⟨(hjoined h).1, rfl⟩

theorem word_reads (hquote : isLineEnd quote = false) (acc : List Char) :
    Yields (word quote bound c acc) (ReadsWord quote c acc) := by
  induction bound generalizing c acc with
  | nil => exact yields_pure (readsWord_nil quote c acc)
  | cons _ bound ih =>
    rw [word]
    refine yields_ite (fun _ => yields_pure (readsWord_nil quote c acc)) fun hgap => ?_
    have hnext : isLineEnd c.next = false := isLineEnd_of_isGap (Bool.of_not_eq_true hgap)
    refine yields_ite (fun hclose => ?_) fun hclose => ?_
    · refine yields_ite (fun htwice => ?_) fun _ => yields_pure (readsWord_nil quote c acc)
      rw [Bool.and_eq_true, decide_eq_true_eq, decide_eq_true_eq] at htwice
      have hline := firstLine_of_look hnext (by rw [htwice.2, hquote])
      rw [hclose, htwice.2] at hline
      exact (ih _).mono fun r hr => hr.cons hline (.twice htwice.1 .nil)
    · refine yields_ite (fun hescape => ?_) fun hescape => ?_
      · rw [Bool.and_eq_true, decide_eq_true_eq, decide_eq_true_eq] at hescape
        obtain ⟨rfl, hbackslash⟩ := hescape
        refine yields_ite (fun hbreak => ?_) fun _ => ?_
        · refine yields_pure ⟨[], [], rfl, .nil, by simp, fun _ => ⟨rfl, ?_⟩⟩
          have hend : isLineEnd (c.advance 1).next = true := by
            rw [Cursor.next, Cursor.look_advance, isLineEnd, hbreak]
            rfl
          rw [firstLine_of_next hnext, firstLine_of_isLineEnd hend, hbackslash]
          rfl
        · refine (escape_spells hnext hbackslash).bind ?_
          rintro ⟨d, c'⟩ ⟨raw, hline, hraw⟩
          exact (ih _).mono fun r hr => hr.cons hline hraw
      · have hline : firstLine c.rest = [c.next] ++ firstLine (c.advance 1).rest :=
          firstLine_of_next hnext
        refine (ih _).mono fun r hr => hr.cons hline ?_
        refine .char hnext hclose (fun hdouble hbackslash => ?_) .nil
        simp [hdouble, hbackslash] at hescape

theorem gap_below {indent : Int} {f : Folding} (h : f.broken = true) :
    Yields (gap indent bound c true f) fun r => r.2.1 = true ∧ r.2.2.broken = true := by
  induction bound generalizing c f with
  | nil => exact yields_pure ⟨rfl, h⟩
  | cons _ bound ih =>
    rw [gap]
    refine yields_ite (fun _ => ?_) fun _ => ?_
    · rw [if_neg (by simp)]
      exact yields_ite (fun _ => yields_throw) fun _ => ih h
    · exact yields_ite (fun _ => ih h) fun _ => yields_pure ⟨rfl, h⟩

/-- The gap behind a word ends on the line of the word, and is kept, or below it. -/
theorem gap_line {indent : Int} {f : Folding} (h : IsBlanks f.blanks) :
    Yields (gap indent bound c false f) fun r =>
      (r.2.1 = false ∧ IsBlanks r.2.2.blanks ∧
        f.blanks ++ firstLine c.rest = r.2.2.blanks ++ firstLine r.1.rest) ∨
      ((r.2.1 = true ∧ r.2.2.broken = true) ∧ IsBlanks (f.blanks ++ firstLine c.rest)) := by
  induction bound generalizing c f with
  | nil => exact yields_pure (.inl ⟨rfl, h, rfl⟩)
  | cons _ bound ih =>
    rw [gap]
    refine yields_ite (fun hblank => ?_) fun _ => ?_
    · have hline : f.blanks ++ firstLine c.rest =
          (f.blank c.next).blanks ++ firstLine (c.skipBlanks 1).rest := by
        rw [firstLine_of_next (isLineEnd_of_isBlank hblank)]
        exact (List.append_assoc _ [c.next] _).symm
      rw [if_pos (by simp), hline]
      exact ih (h.append (isBlanks_singleton hblank))
    · refine yields_ite (fun hbreak => ?_) fun _ => yields_pure (.inl ⟨rfl, h, rfl⟩)
      refine (gap_below rfl).mono fun r hr => .inr ⟨hr, ?_⟩
      rw [firstLine_of_isLineEnd (by rw [isLineEnd, hbreak]; rfl), List.append_nil]
      exact h

/-- Words and gaps between quotes are spelled by the line, up to the closing quote or up to the end
of the line. -/
theorem words_closes {start : Position} {indent : Int} (hquote : isGap quote = false)
    (acc : List Char) :
    Yields (words start quote indent bound c acc) fun r =>
      ∃ text, r.1 = text.reverse ++ acc ∧ Closes quote (firstLine c.rest) text := by
  have hblank : isBlank quote = false := by
    rw [isGap, Bool.or_eq_false_iff] at hquote
    exact hquote.1
  induction bound generalizing c acc with
  | nil => exact yields_throw
  | cons _ bound ih =>
    rw [words]
    refine yields_ite (fun _ => yields_throw) fun _ => ?_
    refine yields_ite (fun _ => yields_throw) fun _ => ?_
    refine yields_ite (fun _ => yields_throw) fun _ => ?_
    refine ((word_reads (isLineEnd_of_isGap hquote) acc).mapError _).bind ?_
    rintro ⟨acc', joined, c'⟩ ⟨raw, line, rfl, hspells, hgoes, hjoined⟩
    dsimp only at hgoes hjoined ⊢
    have hreverse : ∀ gap text : List Char, text.reverse ++ (gap.reverse ++ (line.reverse ++ acc)) =
        (line ++ (gap ++ text)).reverse ++ acc := by simp
    cases joined with
    | true =>
      obtain ⟨rfl, hline⟩ := hjoined rfl
      have hcloses : ∀ more, Closes '\x22' (firstLine c.rest) (line ++ more) := fun more =>
        ⟨raw, line, more, ['\\'], rfl, hline, hspells, .inr (.inr ⟨rfl, rfl⟩)⟩
      refine yields_ite (fun _ => yields_pure ⟨line, rfl, ?_⟩) fun _ => ?_
      · simpa using hcloses []
      · refine Yields.bind (P := fun _ => True) (fun _ _ => trivial) fun r _ => ?_
        refine (ih _).mono ?_
        rintro r' ⟨text, hr', -⟩
        exact ⟨_, hr'.trans (hreverse _ _), hcloses _⟩
    | false =>
      rw [hgoes rfl]
      refine yields_ite (fun hclose => yields_pure ⟨line, rfl, ?_⟩) fun _ => ?_
      · refine ⟨raw, line, [], _, by simp, rfl, hspells, .inl ⟨rfl, ?_⟩⟩
        rw [firstLine_of_next (by rw [hclose]; exact isLineEnd_of_isGap hquote), hclose]
        rfl
      · refine (gap_line isBlanks_nil).bind ?_
        rintro ⟨c'', later, f⟩ hgap
        dsimp only at hgap ⊢
        rcases hgap with ⟨rfl, hf, hline⟩ | ⟨⟨rfl, hbroken⟩, hline⟩
        · rw [List.nil_append] at hline
          rw [hline]
          refine (ih _).mono ?_
          rintro r ⟨text, hr, htext⟩
          refine ⟨_, hr.trans (hreverse _ _), ?_⟩
          exact (htext.append (spells_blanks hblank hf)).append hspells
        · refine (ih _).mono ?_
          rintro r ⟨text, hr, -⟩
          refine ⟨_, hr.trans (hreverse _ _), ?_⟩
          exact (closes_of_isFold hline (isFold_acrossLines hbroken text)).append hspells

/-- A quoted scalar is opened by its line. -/
theorem read_opens {style : Style} {inFlow : Bool} {indent : Int}
    (hstyle : style.quote? = some c.next) :
    Yields (read inFlow indent c) fun r => Opens style r.1.toList (firstLine c.rest) := by
  have hquote : isGap c.next = false := isGap_of_quote? hstyle
  rw [read]
  refine (words_closes hquote []).bind ?_
  rintro ⟨acc, c'⟩ ⟨text, hacc, hcloses⟩
  refine ((c'.advance 1).skipTrailing_yields).bind fun _ _ => ?_
  refine yields_ite (fun _ => yields_pure ?_) fun _ => yields_throw
  obtain ⟨raw, line, more, behind, rfl, hline, hspells, hends⟩ := hcloses
  dsimp only at hacc
  have htext : (String.ofList acc.reverse).toList = line ++ more := by simp [hacc]
  rw [htext, firstLine_of_next (isLineEnd_of_isGap hquote), hline]
  rcases hends with ⟨rfl, hclose⟩ | ⟨hfold, hblanks⟩ | ⟨hdouble, rfl⟩
  · obtain ⟨behind, rfl⟩ := List.head?_eq_some_iff.1 hclose
    rw [List.append_nil]
    exact .quoted hstyle hspells
  · exact .quotedFolded hstyle hspells hfold hblanks
  · obtain rfl : style = .doubleQuoted := by
      rw [hdouble] at hstyle
      cases style <;> first | rfl | cases hstyle
    rw [hdouble] at hspells ⊢
    exact .quotedJoined hspells

end Quoted

/-! ## Block scalars -/

namespace Block

variable {folded : Bool} {indent : Nat} {bound : List Char}

theorem isFold_seam {s : Seam} (h : s.ended = true) (blankLine : Bool) (more : List Char) :
    IsFold (s.text folded blankLine ++ more) := by
  rw [Seam.text, h]
  split
  · split
    · exact .inl rfl
    · next hempty =>
      obtain ⟨n, hn⟩ := Nat.exists_eq_succ_of_ne_zero hempty
      rw [hn]
      exact .inr rfl
  · exact .inr rfl

/-- Lines of content are put behind what has been read: the first of them behind its seam, and all
others behind a fold. -/
theorem content_extends (s : Seam) (acc : List Char) :
    ∃ text : List Char, (content folded indent bound c s acc).1 = text.reverse ++ acc ∧
      (text = [] ∨ ∃ more, text = s.text folded (isBlank c.next) ++ (firstLine c.rest ++ more) ∧
        (more = [] ∨ IsFold more)) := by
  induction bound generalizing c s acc with
  | nil => exact ⟨[], rfl, .inl rfl⟩
  | cons _ bound ih =>
    rw [content]
    split
    · exact ⟨[], rfl, .inl rfl⟩
    · show ∃ text : List Char, (if (c.skipVerbatim (firstLine c.rest).length).next = '\x00' then _
        else _ : List Char × Seam × Cursor).1 = _ ∧ _
      split
      · refine ⟨_, ?_, .inr ⟨[], rfl, .inl rfl⟩⟩
        simp [firstLine]
      · obtain ⟨text, htext, hmore⟩ := ih (c := _) _ _
        refine ⟨_, ?_, .inr ⟨text, rfl, ?_⟩⟩
        · rw [htext]
          simp [firstLine]
        · rcases hmore with rfl | ⟨more, rfl, -⟩
          · exact .inl rfl
          · exact .inr (isFold_seam rfl _ _)

theorem mem_tail {chomping : Chomping} {s : Seam} {d : Char} (hd : d ∈ tail chomping indent s c) :
    d = '\n' := by
  cases chomping with
  | strip => cases hd
  | clip | keep => exact List.eq_of_mem_replicate hd

theorem mem_emptyText {chomping : Chomping} {ended : Bool} {empty : Nat} {d : Char}
    (hd : d ∈ emptyText chomping ended empty) : d = '\n' := by
  cases ended with
  | false => cases chomping <;> cases hd
  | true =>
    cases chomping with
    | strip => cases hd
    | clip => exact List.mem_singleton.1 hd
    | keep => exact List.eq_of_mem_replicate hd

/-- Line feeds behind the last line of content are a fold, or belong to one. -/
theorem fold_append {more ends : List Char} (hmore : more = [] ∨ IsFold more)
    (hends : ∀ d ∈ ends, d = '\n') : more ++ ends = [] ∨ IsFold (more ++ ends) := by
  rcases hmore with rfl | hfold
  · cases ends with
    | nil => exact .inl rfl
    | cons d ends => exact .inr (.inr (by rw [hends d List.mem_cons_self]; rfl))
  · cases more with
    | nil => rcases hfold with h | h <;> cases h
    | cons d more => exact .inr hfold

/-- What is read from the first line of content on is opened by that line, if it is one. -/
theorem content_opens {style : Style} {indicator : Char}
    (hstyle : style.indicator? = some indicator) (chomping : Chomping) (empty : Nat)
    (hnext : isLineEnd c.next = false) :
    let r := content folded indent bound c { empty } []
    let text := r.1.reverse ++ tail chomping indent r.2.1 r.2.2
    Opens style text (firstLine c.rest) ∨ IsEmptyBlock style text := by
  obtain ⟨text, htext, hmore⟩ : ∃ text : List Char, (content folded indent bound c { empty } []).1 =
    text.reverse ++ [] ∧ _ := content_extends { empty } []
  dsimp only
  rw [htext, List.append_nil, List.reverse_reverse]
  rcases hmore with rfl | ⟨more, rfl, hmore⟩
  · exact .inr ⟨by rw [hstyle]; rfl, fun d hd => mem_tail hd⟩
  · have hline : firstLine c.rest ≠ [] := by
      rw [firstLine_of_next hnext]
      exact List.cons_ne_nil _ _
    have hseam : Seam.text { empty } folded (isBlank c.next) = List.replicate empty '\n' := by
      simp [Seam.text]
    rw [hseam, ← List.append_assoc, List.append_assoc]
    exact .inl (.block hstyle hline (fold_append hmore fun d hd => mem_tail hd))

/-- What the reader of a block scalar gives: a text, its mark, and where reading goes on. The mark
is at the header, if the text ends behind it, or else at a line below. -/
structure IsRead (style : Style) (c : Cursor) (text : String) (p : Position) (c' : Cursor) :
    Prop where
  follows : c'.Follows (c.advance 1)
  le : p ≤ c'.position
  below : c'.rest ≠ [] → c.line < c'.line
  opens : p = c.position ∧ Opens style text.toList (firstLine c.rest) ∨
    ∃ c' : Cursor, c'.Agrees (c.advance 1) ∧ p = c'.position ∧ isLineEnd c'.next = false ∧
      (Opens style text.toList (firstLine c'.rest) ∨ IsEmptyBlock style text.toList)

/-- A block scalar is opened by the line that it is marked at. -/
theorem read_opens {style : Style} {outer : Int} (hstyle : style.indicator? = some c.next)
    (hnul : '\x00' ∉ (c.advance 1).rest) :
    Yields (read outer c) fun r => IsRead style c r.1 r.2.1 r.2.2 := by
  rw [read]
  refine (header_yields (Cursor.agrees_refl _)).bind ?_
  rintro ⟨chomping, increment, c₁⟩ h₁
  refine (c₁.skipTrailing_yields).bind ?_
  rintro ⟨_, _, c₂⟩ ⟨h₂, _⟩
  dsimp only at h₁ h₂ ⊢
  have hagrees : c₂.Agrees (c.advance 1) := h₁.trans h₂
  refine yields_ite (fun _ => yields_throw_bind) fun hend => ?_
  -- Where the header does not end the text, a line ends behind it.
  have hbelow : ∀ {c' : Cursor}, c'.IsBehind c₂.newline → c'.rest ≠ [] → c.line < c'.line := by
    intro c' hc' hrest
    have hline : c.line ≤ c₂.line :=
      Position.line_le ((c.isBehind_advance 1).trans hagrees.isBehind).le
    by_cases hbreak : isBreak c₂.next = true
    · have hnewline := (Cursor.newline_of_isBreak hbreak).2
      have hle : c₂.newline.line ≤ c'.line := Position.line_le hc'.le
      omega
    · have hnul₂ : c₂.next = '\x00' := by simpa [isLineEnd, hbreak] using hend
      have hne := (c₂.agrees_refl.newline.isBehind.trans hc').rest_ne_nil hrest
      exact absurd (hagrees.rest_eq_nil hnul hnul₂) hne
  -- In front of the first line of content no line ends.
  have hcontent : ∀ (c' : Cursor) (empty indent : Nat),
      c'.Agrees c₂.newline → isBreak c'.next = false →
      Yields (if c'.next = '\x00' then
          .ok (String.ofList (emptyText chomping (isBreak c₂.next) empty), c.position, c')
        else if c'.column < indent && !c'.before (outer + 1) then
          .error (⟨.blockScalarIndentation, c'.position⟩ : Fault)
        else
          let r := content (c.next = '>') indent c'.rest c' { empty } []
          .ok (String.ofList (r.1.reverse ++ tail chomping indent r.2.1 r.2.2), c'.position, r.2.2))
        fun r => IsRead style c r.1 r.2.1 r.2.2 := by
    intro c' empty indent hnewline hbreak
    have h' : c'.Agrees (c.advance 1) := hagrees.newline.trans hnewline
    refine yields_ite (fun _ => yields_pure ⟨h'.follows, ?_, hbelow hnewline.isBehind,
      .inl ⟨rfl, ?_⟩⟩) fun hend => ?_
    · exact Position.le_trans (c.le_advance 1) h'.le
    · rw [firstLine_of_next (isLineEnd_of_indicator? hstyle), String.toList_ofList,
        List.eq_replicate_of_mem fun d hd => mem_emptyText hd]
      exact .header hstyle
    · refine yields_ite (fun _ => yields_throw) fun _ => ?_
      have hnext : isLineEnd c'.next = false := by
        rw [isLineEnd, hbreak, Bool.false_or]
        exact decide_eq_false hend
      have hfollows : (content (c.next = '>') indent c'.rest c' { empty } []).2.2.Follows c' :=
        content_follows (fun h => hnul (h'.suffix.subset h)) c'.agrees_refl { empty } []
      refine yields_pure ⟨h'.trans_follows hfollows, hfollows.le,
        hbelow (hnewline.isBehind.trans hfollows.isBehind), .inr ⟨c', h', rfl, hnext, ?_⟩⟩
      rw [String.toList_ofList]
      exact content_opens hstyle chomping empty hnext
  refine yields_ite (fun _ => yields_throw_bind) fun _ => ?_
  by_cases hincrement : increment = 0
  · rw [if_pos hincrement]
    obtain ⟨hagrees, hbreak⟩ := skipLeadingLines_spec c₂.newline.agrees_refl (Nat.le_refl _) 0 0
    exact hcontent (Cursor.lookAhead _ _) _ _ hagrees hbreak
  · rw [if_neg hincrement]
    obtain ⟨hagrees, hbreak⟩ := skipEmptyLines_spec c₂.newline.agrees_refl (Nat.le_refl _) 0
    exact hcontent _ _ _ hagrees hbreak

end Block
end TestScript.Yaml
