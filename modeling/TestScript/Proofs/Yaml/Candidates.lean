import Mathlib.Data.List.ReduceOption
import TestScript.Proofs.Yaml.FirstKeys
import TestScript.Proofs.Yaml.Marks
import TestScript.Yaml.Token.Lexer

/-!
# Candidates among the tokens

Where a candidate stands among the tokens is known when it is saved: all tokens in front of it are
marked in front of it, and all that follow are not. What is not known is whether a key follows. So
as long as only properties have been read, the candidate is *bare*, and any other token that may be
put behind it begins the key (`Lexer.Awaits.extend`). At the colon the token of the key is put where
the candidate stands, and there all that is behind it is made anew (`Lexer.Marked.rewrite`).

A bare candidate is the last one, and nothing closes a block collection behind it: that would have
to be open right of it, and none is (`Indentation.Clears`).
-/

namespace TestScript.Yaml

variable {origin c c' : Cursor}

/-! ## Room for a column -/

namespace Indentation

variable {i : Indentation} {column column' : Int}

/-- No block collection is open right of a column. -/
def Clears (column : Int) (i : Indentation) : Prop :=
  i.levels = [] ∨ i.column ≤ column

theorem unrollLevels_clears (column : Int) (ls : List Level) (innermost : Int) :
    (unrollLevels column ls innermost).2.Clears column := by
  induction ls generalizing innermost with
  | nil => exact .inl rfl
  | cons l ls ih =>
    rw [unrollLevels]
    split
    · exact ih l.outer
    · next hle => exact .inr (Int.not_lt.1 hle)

theorem unroll_clears (column : Int) (i : Indentation) : (i.unroll column).2.Clears column :=
  unrollLevels_clears column i.levels i.column

/-- Where no collection is open, there is none to be closed. -/
theorem Clears.unroll_eq (h : i.Clears column) (hle : column ≤ column') :
    i.unroll column' = (0, i) := by
  obtain ⟨innermost, levels⟩ := i
  rw [unroll]
  cases levels with
  | nil => rfl
  | cons l ls =>
    have hinnermost : innermost ≤ column := h.resolve_left (List.cons_ne_nil l ls)
    exact if_neg (by dsimp only; omega)

end Indentation

/-! ## The state of reading tokens -/

/-- A token stands where it is marked, between a position and a cursor. If it may begin a mapping,
then it introduces that. -/
structure Token.IsPlaced (origin c : Cursor) (b : Position) (t : Token) : Prop where
  marked : t.IsMarked origin
  ge : b ≤ t.position
  le : t.position ≤ c.position
  opening : t.IsOpening origin []

namespace Candidate

/-- What is known of a candidate among the tokens read so far. What stands in front of it is not
marked behind it, and what has been read since is not marked in front of it. As long as there is a
text to be read, the first of these tokens introduces a key, or it is the first one of the key. -/
structure Fits (origin c : Cursor) (b : Position) (ts : List Token) (k : Candidate) : Prop where
  le : k.position ≤ b
  number_le : k.number ≤ ts.length
  keys : KeysFollow origin (ts.take k.number)
  front : ∀ t ∈ ts.take k.number, t.position ≤ k.position
  own : ∀ t ∈ ts.drop k.number, k.position ≤ t.position
  first : ∀ t ∈ (ts.drop k.number).head?, c.rest ≠ [] →
    Introduced origin k.position ∨ t.kind.beginsNode ∧ t.position ≤ k.position

/-- The tokens that have been read since a candidate begin a key. -/
def HasBegun (origin : Cursor) (ts : List Token) (k : Candidate) : Prop :=
  BeginsKey origin (ts.drop k.number)

/-- Only properties of a key have been read since a candidate, or nothing since a position. -/
structure IsBare (origin : Cursor) (b : Position) (ts : List Token) (k : Candidate) : Prop where
  properties : ∀ t ∈ ts.drop k.number, t.kind.isProperty ∧ Indicated origin t.position
  position : ts.drop k.number = [] → k.position = b

end Candidate

namespace Lexer

/-- All candidates, innermost first. -/
def candidates (s : Lexer) : List Candidate :=
  (s.candidate :: s.outer).reduceOption

theorem sublist_candidates (s : Lexer) : s.outer.reduceOption.Sublist s.candidates :=
  (List.sublist_cons_self _ _).filterMap id

theorem mem_candidates {s : Lexer} {k : Candidate} (hk : k ∈ s.candidate) : k ∈ s.candidates :=
  List.reduceOption_mem_iff.2 (List.mem_cons.2 (.inl (Option.mem_def.1 hk).symm))

theorem candidates_of_mem {s : Lexer} {k : Candidate} (hk : k ∈ s.candidate) :
    s.candidates = k :: s.outer.reduceOption := by
  rw [candidates, Option.mem_def.1 hk, List.reduceOption_cons_of_some]

/-- What is known of the candidates in the course of a reading. -/
inductive Stage where
  /-- All of them, but a key may still be bare. -/
  | bare
  /-- The keys of the outer ones have begun. -/
  | outer
  /-- The keys of all of them have begun. -/
  | begun

/-- The candidates that something is known of. -/
def known (s : Lexer) : Stage → List Candidate
  | .outer => s.outer.reduceOption
  | _ => s.candidates

/-- The state of reading tokens at a cursor, if all that has been read is marked, and not behind
`b`. -/
structure Awaits (origin c : Cursor) (b : Position) (stage : Stage) (s : Lexer) : Prop where
  cursor : s.cursor = c
  tokens : ∀ t ∈ s.tokens, t.IsMarked origin
  upTo : ∀ t ∈ s.tokens, t.position ≤ b
  keys : KeysFollow origin s.tokens.toList
  fits : ∀ k ∈ s.known stage, k.Fits origin c b s.tokens.toList
  /-- The key of a candidate begins in front of the candidates inside. -/
  nested : (s.known stage).Pairwise fun k k' =>
    BeginsKey origin ((s.tokens.toList.take k.number).drop k'.number)
  begun : ∀ k ∈ s.known stage, k.HasBegun origin s.tokens.toList ∨
    stage = .bare ∧ k.IsBare origin b s.tokens.toList

/-- The state of reading a node, up to its first token. If only properties have been read of the
last key, then no block collection is open right of it that could be closed. -/
structure Reads (origin c : Cursor) (b : Position) (s : Lexer) : Prop where
  awaits : s.Awaits origin c b .bare
  outer : ∀ k ∈ s.outer.reduceOption, k.HasBegun origin s.tokens.toList
  room : ∀ k ∈ s.candidate, k.HasBegun origin s.tokens.toList ∨
    (s.outer = [] → s.indentation.Clears k.position.column)

/-- The state of reading tokens in front of a reading, if all that has been read is marked. -/
structure Marked (origin c : Cursor) (s : Lexer) : Prop extends Reads origin c c.position s where
  read : ∀ k ∈ s.candidate, s.tokens.toList.drop k.number ≠ []

/-- All that has been read is marked, unless a candidate has become stale. -/
def MarkedButStale (origin c : Cursor) (s : Lexer) : Prop :=
  s.Marked origin c ∨ s.outer = [] ∧ { s with candidate := none }.Marked origin c ∧
    ∀ k ∈ s.candidate, k.position.line < c.line

end Lexer

namespace Candidate

variable {b q : Position} {ts more : List Token} {k : Candidate}

theorem HasBegun.number_lt (h : k.HasBegun origin ts) : k.number < ts.length := by
  have hne := BeginsKey.ne_nil h
  rwa [ne_eq, List.drop_eq_nil_iff, Nat.not_le] at hne

theorem HasBegun.append (h : k.HasBegun origin ts) (more : List Token) :
    k.HasBegun origin (ts ++ more) := by
  rw [HasBegun, List.drop_append_of_le_length h.number_lt.le]
  exact BeginsKey.append h more

theorem Fits.move (h : k.Fits origin c b ts) (hc : c'.IsBehind c) (hbq : b ≤ q) :
    k.Fits origin c' q ts :=
  { h with
    le := Position.le_trans h.le hbq
    first := fun t ht hrest => h.first t ht (hc.rest_ne_nil hrest) }

/-- Tokens are put behind the others. If none has been read since a candidate, then the first of
them is that of the candidate. -/
theorem Fits.append (h : k.Fits origin c b ts) (hbq : b ≤ q)
    (hmore : ∀ t ∈ more, q ≤ t.position)
    (hfirst : ts.drop k.number = [] → ∀ t ∈ more.head?, c.rest ≠ [] →
      Introduced origin k.position ∨ t.kind.beginsNode ∧ t.position ≤ k.position) :
    k.Fits origin c q (ts ++ more) := by
  have htake : (ts ++ more).take k.number = ts.take k.number :=
    List.take_append_of_le_length h.number_le
  have hdrop : (ts ++ more).drop k.number = ts.drop k.number ++ more :=
    List.drop_append_of_le_length h.number_le
  have hle : k.position ≤ q := Position.le_trans h.le hbq
  refine ⟨hle, ?_, htake ▸ h.keys, htake ▸ h.front, ?_, ?_⟩
  · exact h.number_le.trans (List.length_append ▸ Nat.le_add_right _ _)
  · rw [hdrop]
    exact List.forall_mem_append.2 ⟨h.own, fun t ht => Position.le_trans hle (hmore t ht)⟩
  · rw [hdrop]
    intro t ht
    cases hown : ts.drop k.number with
    | nil =>
      rw [hown] at ht
      exact hfirst hown t ht
    | cons t' own =>
      rw [hown] at ht
      exact h.first t (hown ▸ ht)

/-- All tokens behind some are made anew, and those in front begin the key of a candidate. -/
theorem Fits.rewrite {n : Nat} {m : Position} (h : k.Fits origin c b ts) (hc : c'.IsBehind c)
    (hbq : b ≤ q) (hbegun : BeginsKey origin ((ts.take n).drop k.number))
    (hfront : ∀ t ∈ ts.take n, t.position ≤ m) (hmore : ∀ t ∈ more, m ≤ t.position) :
    k.Fits origin c' q (ts.take n ++ more) := by
  have hlt : k.number < (ts.take n).length := by
    have hne := hbegun.ne_nil
    rwa [ne_eq, List.drop_eq_nil_iff, Nat.not_le] at hne
  have hown : (ts.take n).drop k.number <+: ts.drop k.number := by
    rw [List.drop_take]
    exact List.take_prefix _ _
  have htake : (ts.take n ++ more).take k.number = ts.take k.number := by
    rw [List.take_append_of_le_length hlt.le, List.take_take, Nat.min_eq_left]
    exact hlt.le.trans (List.length_take_le _ _)
  have hdrop : (ts.take n ++ more).drop k.number = (ts.take n).drop k.number ++ more :=
    List.drop_append_of_le_length hlt.le
  -- The first token of the candidate stands in front, so what is made anew is behind the candidate.
  obtain ⟨t, own, hhead⟩ := List.exists_cons_of_ne_nil hbegun.ne_nil
  have hmem : t ∈ (ts.take n).drop k.number := hhead ▸ List.mem_cons_self
  have hm : k.position ≤ m :=
    Position.le_trans (h.own t (hown.subset hmem)) (hfront t (List.mem_of_mem_drop hmem))
  refine ⟨Position.le_trans h.le hbq, ?_, htake ▸ h.keys, htake ▸ h.front, ?_, ?_⟩
  · exact hlt.le.trans (List.length_append ▸ Nat.le_add_right _ _)
  · rw [hdrop]
    exact List.forall_mem_append.2
      ⟨fun t ht => h.own t (hown.subset ht), fun t ht => Position.le_trans hm (hmore t ht)⟩
  · rw [hdrop, hhead]
    rintro _ ⟨⟩ hrest
    obtain ⟨behind, hbehind⟩ := hown
    exact h.first t (by rw [← hbehind, hhead]; rfl) (hc.rest_ne_nil hrest)

end Candidate

namespace Lexer

variable {b q : Position} {stage : Stage} {s : Lexer}

theorem Awaits.move (hs : s.Awaits origin c b stage) (hc : c'.IsBehind c) :
    { s with cursor := c' }.Awaits origin c' b stage :=
  { hs with
    cursor := rfl
    fits := fun k hk => (hs.fits k hk).move hc (Position.le_refl b) }

/-- Some of the candidates are given up. -/
theorem Awaits.forget (hs : s.Awaits origin c b stage) {candidate : Option Candidate}
    {outer : List (Option Candidate)} {stage' : Stage}
    (h : (known { s with candidate, outer } stage').Sublist (s.known stage))
    (hstage : stage ≠ .bare ∨ stage = stage') :
    { s with candidate, outer }.Awaits origin c b stage' where
  cursor := hs.cursor
  tokens := hs.tokens
  upTo := hs.upTo
  keys := hs.keys
  fits k hk := hs.fits k (h.subset hk)
  nested := hs.nested.sublist h
  begun k hk := (hs.begun k (h.subset hk)).imp_right fun ⟨hbare, hk⟩ =>
    ⟨hstage.elim (absurd hbare) fun h => h ▸ hbare, hk⟩

/-- Tokens are put behind the others. The first of them is that of a candidate without tokens, and
if they begin a key, then all keys have begun. -/
theorem Awaits.extend (hs : s.Awaits origin c b stage) (stage' : Stage) {tokens : Array Token}
    {more : List Token} (hknown : s.known stage' = s.known stage)
    (htokens : tokens.toList = s.tokens.toList ++ more) (hbq : b ≤ q)
    (hmore : ∀ t ∈ more, t.position = q ∧ t.IsMarked origin ∧ t.IsOpening origin [])
    (hbare : stage = .bare → more ≠ [] ∧ (∀ t ∈ more.head?, c.rest ≠ [] →
      Introduced origin b ∨ t.kind.beginsNode ∧ t.position ≤ b) ∧
      (BeginsKey origin more ∨
        stage' = .bare ∧ ∀ t ∈ more, t.kind.isProperty ∧ Indicated origin t.position)) :
    { s with tokens }.Awaits origin c q stage' := by
  have hmem : ∀ t ∈ tokens, t ∈ s.tokens ∨ t ∈ more := fun t ht => by
    rwa [← Array.mem_toList_iff, htokens, List.mem_append, Array.mem_toList_iff] at ht
  have hq : ∀ t ∈ more, q ≤ t.position := fun t ht => by
    rw [(hmore t ht).1]
    exact Position.le_refl q
  refine ⟨hs.cursor, fun t ht => ?_, fun t ht => ?_, ?_, fun k hk => ?_, ?_, fun k hk => ?_⟩
  · exact (hmem t ht).elim (hs.tokens t) fun ht => (hmore t ht).2.1
  · refine (hmem t ht).elim (fun ht => Position.le_trans (hs.upTo t ht) hbq) fun ht => ?_
    rw [(hmore t ht).1]
    exact Position.le_refl q
  · show KeysFollow origin tokens.toList
    rw [htokens]
    refine hs.keys.append (keysFollow_of_forall fun t ht => ⟨(hmore t ht).1, (hmore t ht).2.2⟩) ?_
    intro t ht t' ht'
    exact Position.le_trans (hs.upTo t (Array.mem_toList_iff.1 ht))
      (Position.le_trans hbq (hq t' ht'))
  · replace hk : k ∈ s.known stage := hknown ▸ hk
    show k.Fits origin c q tokens.toList
    rw [htokens]
    refine (hs.fits k hk).append hbq hq fun hnone => ?_
    rcases hs.begun k hk with hbegun | ⟨hstage, hk⟩
    · exact absurd hnone (BeginsKey.ne_nil hbegun)
    · rw [hk.position hnone]
      exact (hbare hstage).2.1
  · show (s.known stage').Pairwise fun k k' =>
      BeginsKey origin ((tokens.toList.take k.number).drop k'.number)
    rw [hknown, htokens]
    refine hs.nested.imp_of_mem fun {k k'} hk _ h => ?_
    rwa [List.take_append_of_le_length (hs.fits k hk).number_le]
  · replace hk : k ∈ s.known stage := hknown ▸ hk
    show k.HasBegun origin tokens.toList ∨ stage' = .bare ∧ k.IsBare origin q tokens.toList
    rw [htokens]
    have hdrop : (s.tokens.toList ++ more).drop k.number = s.tokens.toList.drop k.number ++ more :=
      List.drop_append_of_le_length (hs.fits k hk).number_le
    rcases hs.begun k hk with hbegun | ⟨hstage, hk⟩
    · exact .inl (hbegun.append more)
    · obtain ⟨hne, -, hbegins | ⟨hstage', hproperties⟩⟩ := hbare hstage
      · rw [Candidate.HasBegun, hdrop]
        exact .inl (hbegins.of_properties hk.properties)
      · refine .inr ⟨hstage', ?_, fun hnone => ?_⟩
        · rw [hdrop]
          exact List.forall_mem_append.2 ⟨hk.properties, hproperties⟩
        · rw [hdrop] at hnone
          exact absurd (List.append_eq_nil_iff.1 hnone).2 hne

/-- Block collections are closed. -/
theorem Awaits.close (hs : s.Awaits origin c b stage) (hstage : stage ≠ .bare)
    (hb : b ≤ c.position) (closed : Nat) :
    Awaits origin c c.position stage
      { s with
        tokens := s.tokens ++ Array.replicate closed (⟨s.cursor.position, .blockEnd⟩ : Token) } := by
  refine hs.extend stage rfl Array.toList_append hb (fun t ht => ?_) (absurd · hstage)
  rw [Array.toList_replicate] at ht
  rw [List.eq_of_mem_replicate ht, hs.cursor]
  exact ⟨rfl, trivial, trivial⟩

/-- If all keys have begun, then any reading may follow. -/
theorem Awaits.marked (hs : s.Awaits origin c b .begun) (hb : b ≤ c.position) :
    s.Marked origin c := by
  have hbegun : ∀ k ∈ s.candidates, k.HasBegun origin s.tokens.toList := fun k hk =>
    (hs.begun k hk).resolve_right fun h => Stage.noConfusion h.1
  refine ⟨⟨⟨hs.cursor, hs.tokens, fun t ht => Position.le_trans (hs.upTo t ht) hb, hs.keys,
    fun k hk => (hs.fits k hk).move (Cursor.agrees_refl c).isBehind hb, hs.nested,
    fun k hk => .inl (hbegun k hk)⟩, fun k hk => ?_, fun k hk => ?_⟩, fun k hk => ?_⟩
  · exact hbegun k (s.sublist_candidates.subset hk)
  · exact .inl (hbegun k (mem_candidates hk))
  · exact BeginsKey.ne_nil (hbegun k (mem_candidates hk))

theorem Reads.awaits_outer (hs : s.Reads origin c b) : s.Awaits origin c b .outer :=
  { hs.awaits with
    fits := fun k hk => hs.awaits.fits k (s.sublist_candidates.subset hk)
    nested := hs.awaits.nested.sublist s.sublist_candidates
    begun := fun k hk => .inl (hs.outer k hk) }

theorem Reads.awaits_begun (hs : s.Reads origin c b)
    (hbegun : ∀ k ∈ s.candidate, k.HasBegun origin s.tokens.toList) :
    s.Awaits origin c b .begun := by
  refine { hs.awaits with begun := fun k hk => .inl ?_ }
  rcases List.mem_cons.1 (List.reduceOption_mem_iff.1 hk) with hk | hk
  · exact hbegun k hk.symm
  · exact hs.outer k (List.reduceOption_mem_iff.2 hk)

theorem Reads.move (hs : s.Reads origin c b) (hc : c'.IsBehind c) :
    { s with cursor := c' }.Reads origin c' b :=
  { hs with awaits := hs.awaits.move hc }

/-- If there are tokens of the last key, then any reading may follow. -/
theorem Reads.marked (hs : s.Reads origin c b) (hb : b ≤ c.position)
    (hread : ∀ k ∈ s.candidate, s.tokens.toList.drop k.number ≠ []) : s.Marked origin c := by
  have h := hs.awaits
  refine { hs with read := hread, awaits := { h with
    upTo := fun t ht => Position.le_trans (h.upTo t ht) hb
    fits := fun k hk => (h.fits k hk).move (Cursor.agrees_refl c).isBehind hb
    begun := fun k hk => ?_ } }
  rcases List.mem_cons.1 (List.reduceOption_mem_iff.1 hk) with hcandidate | houter
  · exact (h.begun k hk).imp_right fun ⟨hstage, hbare⟩ => ⟨hstage, hbare.properties,
      fun hnone => absurd hnone (hread k hcandidate.symm)⟩
  · exact .inl (hs.outer k (List.reduceOption_mem_iff.2 houter))

theorem Marked.move (hs : s.Marked origin c) (hc : c'.IsBehind c) :
    { s with cursor := c' }.Marked origin c' :=
  (hs.toReads.move hc).marked hc.le hs.read

/-- The candidate of the innermost collection is given up. -/
theorem Marked.forget (hs : s.Marked origin c) : { s with candidate := none }.Marked origin c := by
  have h : { s with candidate := none }.Awaits origin c c.position .begun :=
    hs.awaits_outer.forget (List.Sublist.refl _) (.inl nofun)
  exact h.marked (Position.le_refl _)

/-- The next token becomes a candidate. -/
theorem Marked.save (hs : s.Marked origin c) {k : Candidate} (hnumber : k.number = s.tokens.size)
    (hposition : k.position = c.position)
    (hroom : s.outer = [] → s.indentation.Clears c.column) :
    { s with candidate := some k }.Reads origin c c.position := by
  have hlength : k.number = s.tokens.toList.length := hnumber.trans s.tokens.length_toList.symm
  have htake : s.tokens.toList.take k.number = s.tokens.toList := hlength ▸ List.take_length
  have hdrop : s.tokens.toList.drop k.number = [] := hlength ▸ List.drop_length
  have hs' := hs.awaits_outer
  have hcandidates : candidates { s with candidate := some k } = k :: s.outer.reduceOption :=
    List.reduceOption_cons_of_some _ _
  refine ⟨{ hs' with fits := ?_, nested := ?_, begun := ?_ }, hs.outer, ?_⟩
  · show ∀ k' ∈ candidates { s with candidate := some k }, _
    rw [hcandidates]
    refine List.forall_mem_cons.2 ⟨⟨hposition ▸ Position.le_refl _, hlength.le,
      htake.symm ▸ hs'.keys, ?_, ?_, ?_⟩, hs'.fits⟩
    · rw [htake, hposition]
      exact fun t ht => hs'.upTo t (Array.mem_toList_iff.1 ht)
    · exact hdrop ▸ List.forall_mem_nil _
    · exact hdrop ▸ fun t ht => absurd ht (Option.not_mem_none t)
  · show (candidates { s with candidate := some k }).Pairwise _
    rw [hcandidates]
    refine List.pairwise_cons.2 ⟨fun k' hk' => ?_, hs'.nested⟩
    exact htake.symm ▸ hs.outer k' hk'
  · show ∀ k' ∈ candidates { s with candidate := some k }, _
    rw [hcandidates]
    refine List.forall_mem_cons.2 ⟨.inr ⟨rfl, ?_, fun _ => hposition⟩, fun k' hk' => ?_⟩
    · exact hdrop ▸ List.forall_mem_nil _
    · exact .inl (hs.outer k' hk')
  · rintro _ ⟨⟩
    exact .inr fun houter => hposition ▸ hroom houter

/-- All tokens behind some are made anew, and no candidate stands among them. -/
theorem Marked.rewrite (hs : s.Marked origin c) {s' : Lexer} {n : Nat} {more : List Token}
    {m : Position} (hc : s'.cursor.IsBehind c) (houter : s'.outer = s.outer)
    (hcandidate : s'.candidate = none) (htokens : s'.tokens.toList = s.tokens.toList.take n ++ more)
    (hfront : KeysFollow origin (s.tokens.toList.take n))
    (hbegun : ∀ k ∈ s.outer.reduceOption,
      BeginsKey origin ((s.tokens.toList.take n).drop k.number))
    (hle : ∀ t ∈ s.tokens.toList.take n, t.position ≤ m)
    (hmore : ∀ t ∈ more, t.IsMarked origin ∧ m ≤ t.position ∧ t.position ≤ s'.cursor.position)
    (hkeys : KeysFollow origin more) : s'.Marked origin s'.cursor := by
  have hmem : ∀ t ∈ s'.tokens, t ∈ s.tokens ∨ t ∈ more := fun t ht => by
    rw [← Array.mem_toList_iff, htokens, List.mem_append] at ht
    exact ht.imp_left fun ht => Array.mem_toList_iff.1 (List.mem_of_mem_take ht)
  have hcandidates : s'.candidates = s.outer.reduceOption := by
    rw [candidates, hcandidate, houter, List.reduceOption_cons_of_none]
  have hs' := hs.awaits_outer
  have hfits : ∀ k ∈ s.outer.reduceOption,
      k.Fits origin s'.cursor s'.cursor.position s'.tokens.toList := fun k hk => by
    rw [htokens]
    exact (hs'.fits k hk).rewrite hc hc.le (hbegun k hk) hle fun t ht => (hmore t ht).2.1
  have hnumber : ∀ k ∈ s.outer.reduceOption, k.number ≤ (s.tokens.toList.take n).length :=
    fun k hk => (Candidate.HasBegun.number_lt (hbegun k hk)).le
  have hawaits : s'.Awaits origin s'.cursor s'.cursor.position .begun := by
    refine ⟨rfl, fun t ht => ?_, fun t ht => ?_, ?_, fun k hk => hfits k (hcandidates ▸ hk), ?_,
      fun k hk => ?_⟩
    · exact (hmem t ht).elim (hs'.tokens t) fun ht => (hmore t ht).1
    · exact (hmem t ht).elim (fun ht => Position.le_trans (hs'.upTo t ht) hc.le)
        fun ht => (hmore t ht).2.2
    · rw [htokens]
      exact hfront.append hkeys fun t ht t' ht' =>
        Position.le_trans (hle t ht) (hmore t' ht').2.1
    · show s'.candidates.Pairwise _
      rw [hcandidates, htokens]
      refine hs'.nested.imp_of_mem fun {k k'} hk _ h => ?_
      have htake : (s.tokens.toList.take n).take k.number = s.tokens.toList.take k.number := by
        rw [List.take_take, Nat.min_eq_left]
        exact (hnumber k hk).trans (List.length_take_le _ _)
      rwa [List.take_append_of_le_length (hnumber k hk), htake]
    · replace hk : k ∈ s.outer.reduceOption := hcandidates ▸ hk
      rw [htokens, Candidate.HasBegun, List.drop_append_of_le_length (hnumber k hk)]
      exact .inl ((hbegun k hk).append more)
  exact hawaits.marked (Position.le_refl _)

end Lexer

end TestScript.Yaml
