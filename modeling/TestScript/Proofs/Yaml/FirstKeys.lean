import Mathlib.Data.List.Basic
import TestScript.Proofs.Yaml.Places
import TestScript.Yaml.Token

/-!
# What the tokens of a first key are marked at

A mapping that is marked in front of its first key counts as inline. So it matters where the tokens
that begin a mapping are marked, compared with those of its first key. Either the mark is that of a
brace, of the indicator of a key, or of an anchor or a tag in front of the key (`Introduced`), and
no token behind it is marked in front of it; or none of the tokens up to the first colon is marked
behind it (`KeysFollow`).

A first key may be missing. Then its colon stands in its place, or what stands in front of it
(`Indicated`).

The key of a mapping is put in front of tokens that have been read before, and so is its start. What
is said here of a list of tokens holds when tokens are put behind it, and in front of some of them
only as far as it holds of those in front (`KeysFollow.append`).
-/

namespace TestScript.Yaml

variable {origin : Cursor} {m : Position} {t : Token} {ts ts' : List Token}

/-! ## Marks -/

/-- What stands in front of the first key of a mapping: a brace, the indicator of a key, an anchor
or a tag. -/
def Introduced (origin : Cursor) (p : Position) : Prop :=
  ∃ c ∈ ['\x7b', '?', '&', '!'], StandsAt origin p c

/-- What stands where a first key is missing: its colon, an alias that is not a key, or what stands
in front of it. -/
def Indicated (origin : Cursor) (p : Position) : Prop :=
  ∃ c ∈ [':', '*', '\x7b', '?', '&', '!'], StandsAt origin p c

theorem Introduced.indicated {p : Position} (h : Introduced origin p) : Indicated origin p := by
  obtain ⟨c, hc, hstands⟩ := h
  exact ⟨c, List.mem_cons_of_mem _ (List.mem_cons_of_mem _ hc), hstands⟩

/-! ## The first tokens of a key -/

/-- Whether a token begins a node, and is marked where the node is. -/
def Token.Kind.beginsNode : Token.Kind → Bool
  | .scalar .. | .alias _ | .flowSequenceStart | .flowMappingStart => true
  | _ => false

/-- Whether a token is a property of a node. -/
def Token.Kind.isProperty : Token.Kind → Bool
  | .anchor _ | .tag _ => true
  | _ => false

/-- Whether a token begins a node that is not missing, and may have properties. -/
def Token.Kind.isContent : Token.Kind → Bool
  | .scalar style text => style ≠ .plain || text ≠ ""
  | .flowSequenceStart | .flowMappingStart => true
  | _ => false

/-- Tokens begin a key with its properties and its content, or with what stands in place of it. -/
inductive BeginsKey (origin : Cursor) : List Token → Prop
  | content {t : Token} {ts : List Token} (hkind : t.kind.isContent) : BeginsKey origin (t :: ts)
  | sign {t : Token} {ts : List Token} (hkind : t.kind.isProperty = false)
    (ht : Indicated origin t.position) : BeginsKey origin (t :: ts)
  | property {t : Token} {ts : List Token} (hkind : t.kind.isProperty)
    (ht : Indicated origin t.position) (h : BeginsKey origin ts) : BeginsKey origin (t :: ts)

/-- Tokens come to a colon, and up to it none is marked behind `m`. -/
inductive ComesToColon (m : Position) : List Token → Prop
  | colon {t : Token} {ts : List Token} (hkind : t.kind = .value) (ht : t.position ≤ m) :
    ComesToColon m (t :: ts)
  | cons {t : Token} {ts : List Token} (ht : t.position ≤ m) (h : ComesToColon m ts) :
    ComesToColon m (t :: ts)

/-- Tokens begin a member of a mapping, with its key or with the colon behind a missing one, and up
to the colon none is marked behind `m`. -/
structure BeginsMember (origin : Cursor) (m : Position) (ts : List Token) : Prop where
  comes : ComesToColon m ts
  head : ∃ t ∈ ts.head?, t.kind = .key ∧ BeginsKey origin ts.tail ∨
    t.kind = .value ∧ Indicated origin t.position

/-- Tokens begin a node that is not marked behind `m`: they come to a colon before any of them is,
or the first of them begins the node. -/
def BeginsWithin (m : Position) (ts : List Token) : Prop :=
  ComesToColon m ts ∨ ∃ t ∈ ts.head?, t.kind.beginsNode ∧ t.position ≤ m

/-- A token that introduces a mapping, in front of all that is marked behind it. -/
def Token.Introduces (origin : Cursor) (t : Token) (behind : List Token) : Prop :=
  Introduced origin t.position ∧ ∀ t' ∈ behind, t.position ≤ t'.position

/-- What stands behind a token that may begin a mapping, if it does not introduce one: the key and
all else of the first member up to its colon, or a key that is marked where the mapping is. -/
def Token.IsOpening (origin : Cursor) (t : Token) (behind : List Token) : Prop :=
  match t.kind with
  | .flowMappingStart | .blockMappingStart =>
    t.Introduces origin behind ∨ BeginsMember origin t.position behind
  | .key =>
    t.Introduces origin behind ∨ BeginsKey origin behind ∧
      ∃ t' ∈ behind.head?, t'.kind.beginsNode ∧ t'.position ≤ t.position
  | _ => True

/-- Behind each token that may begin a mapping stands what does. -/
def KeysFollow (origin : Cursor) : List Token → Prop
  | [] => True
  | t :: ts => t.IsOpening origin ts ∧ KeysFollow origin ts

theorem BeginsKey.ne_nil (h : BeginsKey origin ts) : ts ≠ [] := by
  cases h <;> exact List.cons_ne_nil _ _

theorem BeginsKey.append (h : BeginsKey origin ts) (ts' : List Token) :
    BeginsKey origin (ts ++ ts') := by
  induction h with
  | content hkind => exact .content hkind
  | sign hkind ht => exact .sign hkind ht
  | property hkind ht _ ih => exact .property hkind ht ih

/-- Behind properties a key begins as it does without them. -/
theorem BeginsKey.of_properties (h : BeginsKey origin ts')
    (hts : ∀ t ∈ ts, t.kind.isProperty ∧ Indicated origin t.position) :
    BeginsKey origin (ts ++ ts') := by
  induction ts with
  | nil => exact h
  | cons t ts ih =>
    obtain ⟨⟨hkind, ht⟩, hts⟩ := List.forall_mem_cons.1 hts
    exact .property hkind ht (ih hts)

theorem Token.Kind.isContent_eq_false {kind : Token.Kind} (h : kind.isProperty) :
    kind.isContent = false := by
  cases kind <;> first | rfl | cases h

theorem BeginsKey.tail (h : BeginsKey origin (t :: ts)) (hkind : t.kind.isProperty) :
    BeginsKey origin ts := by
  cases h with
  | content hcontent => exact absurd hcontent (by simp [Token.Kind.isContent_eq_false hkind])
  | sign hsign _ => exact absurd hkind (by simp [hsign])
  | property _ _ h => exact h

theorem BeginsKey.indicated (h : BeginsKey origin (t :: ts)) (hkind : t.kind.isContent = false) :
    Indicated origin t.position := by
  cases h with
  | content hcontent => exact absurd hcontent (by simp [hkind])
  | sign _ ht => exact ht
  | property _ ht _ => exact ht

/-! ## Up to the colon -/

theorem ComesToColon.ne_nil (h : ComesToColon m ts) : ts ≠ [] := by
  cases h <;> exact List.cons_ne_nil _ _

theorem ComesToColon.head_le (h : ComesToColon m (t :: ts)) : t.position ≤ m := by
  cases h with
  | colon _ ht => exact ht
  | cons ht _ => exact ht

theorem ComesToColon.tail (h : ComesToColon m (t :: ts)) (hkind : t.kind ≠ .value) :
    ComesToColon m ts := by
  cases h with
  | colon hvalue _ => exact absurd hvalue hkind
  | cons _ h => exact h

theorem BeginsWithin.ne_nil (h : BeginsWithin m ts) : ts ≠ [] := by
  rintro rfl
  rcases h with h | ⟨_, ht, -⟩
  · exact h.ne_nil rfl
  · cases ht

theorem BeginsWithin.head_le (h : BeginsWithin m (t :: ts)) : t.position ≤ m := by
  rcases h with h | ⟨_, ⟨⟩, -, hle⟩
  · exact h.head_le
  · exact hle

/-- Properties stand in front of a node. -/
theorem BeginsWithin.tail (h : BeginsWithin m (t :: ts)) (hkind : t.kind ≠ .value)
    (hbegins : t.kind.beginsNode = false) : BeginsWithin m ts := by
  rcases h with h | ⟨_, ⟨⟩, htrue, -⟩
  · exact .inl (h.tail hkind)
  · rw [hbegins] at htrue
    cases htrue

theorem ComesToColon.append (h : ComesToColon m ts) (ts' : List Token) :
    ComesToColon m (ts ++ ts') := by
  induction h with
  | colon hkind ht => exact .colon hkind ht
  | cons ht _ ih => exact .cons ht ih

/-- Tokens that are not marked behind `m` come to a colon that is not either. -/
theorem comesToColon_concat (hts : ∀ t' ∈ ts, t'.position ≤ m) (hkind : t.kind = .value)
    (ht : t.position ≤ m) : ComesToColon m (ts ++ [t]) := by
  induction ts with
  | nil => exact .colon hkind ht
  | cons t' ts ih =>
    obtain ⟨ht', hts⟩ := List.forall_mem_cons.1 hts
    exact .cons ht' (ih hts)

theorem BeginsMember.append (h : BeginsMember origin m ts) (ts' : List Token) :
    BeginsMember origin m (ts ++ ts') := by
  obtain ⟨t, ht, hkind⟩ := h.head
  obtain ⟨behind, rfl⟩ := List.head?_eq_some_iff.1 ht
  exact ⟨h.comes.append ts', t, rfl,
    hkind.imp_left fun ⟨hkey, hbegins⟩ => ⟨hkey, hbegins.append ts'⟩⟩

/-! ## Behind the tokens that may begin a mapping -/

theorem Token.Introduces.append (h : t.Introduces origin ts)
    (hts' : ∀ t' ∈ ts', t.position ≤ t'.position) : t.Introduces origin (ts ++ ts') :=
  ⟨h.1, List.forall_mem_append.2 ⟨h.2, hts'⟩⟩

/-- What stands further behind does not matter, if it is not marked in front. -/
theorem Token.IsOpening.append (h : t.IsOpening origin ts)
    (hts' : ∀ t' ∈ ts', t.position ≤ t'.position) : t.IsOpening origin (ts ++ ts') := by
  unfold Token.IsOpening at *
  split
  · next hkind =>
    rw [hkind] at h
    exact h.imp (·.append hts') (·.append ts')
  · next hkind =>
    rw [hkind] at h
    exact h.imp (·.append hts') (·.append ts')
  · next hkind =>
    rw [hkind] at h
    exact h.imp (·.append hts') fun ⟨hbegins, t', ht', h⟩ =>
      ⟨hbegins.append ts', t', List.mem_head?_append_of_mem_head? ht', h⟩
  · trivial

theorem KeysFollow.append (h : KeysFollow origin ts) (h' : KeysFollow origin ts')
    (hle : ∀ t ∈ ts, ∀ t' ∈ ts', t.position ≤ t'.position) : KeysFollow origin (ts ++ ts') := by
  induction ts with
  | nil => exact h'
  | cons t ts ih =>
    obtain ⟨ht, hts⟩ := List.forall_mem_cons.1 hle
    exact ⟨h.1.append ht, ih h.2 hts⟩

theorem KeysFollow.of_suffix (h : KeysFollow origin ts) (hsuffix : ts' <:+ ts) :
    KeysFollow origin ts' := by
  obtain ⟨front, rfl⟩ := hsuffix
  induction front with
  | nil => exact h
  | cons t front ih => exact ih h.2

/-- Tokens at one place that need nothing behind them. -/
theorem keysFollow_of_forall (h : ∀ t ∈ ts, t.position = m ∧ t.IsOpening origin []) :
    KeysFollow origin ts := by
  induction ts with
  | nil => trivial
  | cons t ts ih =>
    obtain ⟨⟨hm, ht⟩, hts⟩ := List.forall_mem_cons.1 h
    exact ⟨ht.append fun t' ht' => by rw [hm, (hts t' ht').1]; exact Position.le_refl _, ih hts⟩

end TestScript.Yaml
