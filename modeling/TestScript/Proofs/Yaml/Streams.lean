import TestScript.Proofs.Document.Openings
import TestScript.Proofs.Yaml.FirstKeys

/-!
# Nodes at the tokens that are left

A node is told when the tokens that are left begin with it. So what is known of the tokens says
where the node is marked: not behind the first of them, if that begins a node, and not behind the
colon, if they come to one before (`TokenStream.Heads`). The first key of a mapping is not marked
behind the mapping then, or else the mapping is introduced; and if the key is missing, then what is
marked where the key is indicates it (`TokenStream.HeadsMember.indicated_of_opensAt`).
-/

namespace TestScript.Yaml

open Document (Described)

variable {origin : Cursor}

/-! ## What is left of the tokens -/

namespace TokenStream

/-- How many tokens are left. -/
def left (s : TokenStream) : Nat :=
  s.tokens.length

/-- Tokens have been read, and no others. -/
structure IsBehind (s' s : TokenStream) : Prop where
  suffix : s'.tokens <:+ s.tokens
  ending : s'.ending = s.ending

/-- Behind the tokens that may begin a mapping stand their keys, and the last one is at the end. -/
structure KeysFollow (origin : Cursor) (s : TokenStream) : Prop where
  keys : Yaml.KeysFollow origin s.tokens
  last : ∀ q, s.ending = .ok q → ∀ t ∈ s.tokens.getLast?, t.position = q

/-- Nothing is left that is marked in front of `m`. -/
structure IsAfter (s : TokenStream) (m : Position) : Prop where
  tokens : ∀ t ∈ s.tokens, m ≤ t.position
  ending : ∀ q, s.ending = .ok q → m ≤ q

variable {s s' s'' : TokenStream} {t : Token} {p m : Position} {kind : Token.Kind}

@[simp] theorem left_drop : s.drop.left = s.left - 1 :=
  List.length_tail

theorem isBehind_refl (s : TokenStream) : s.IsBehind s :=
  ⟨List.suffix_rfl, rfl⟩

theorem isBehind_drop (s : TokenStream) : s.drop.IsBehind s :=
  ⟨List.tail_suffix _, rfl⟩

theorem IsBehind.trans (h : s'.IsBehind s) (h' : s''.IsBehind s') : s''.IsBehind s :=
  ⟨h'.suffix.trans h.suffix, h'.ending.trans h.ending⟩

theorem IsBehind.left_le (h : s'.IsBehind s) : s'.left ≤ s.left :=
  h.suffix.length_le

theorem KeysFollow.behind (h : s.KeysFollow origin) (h' : s'.IsBehind s) :
    s'.KeysFollow origin where
  keys := h.keys.of_suffix h'.suffix
  last q hq t ht := by
    obtain ⟨front, hfront⟩ := h'.suffix
    refine h.last q (h'.ending ▸ hq) t ?_
    rw [← hfront, List.getLast?_append, Option.mem_def.1 ht]
    rfl

theorem KeysFollow.drop (h : s.KeysFollow origin) : s.drop.KeysFollow origin :=
  h.behind s.isBehind_drop

theorem IsAfter.behind (h : s.IsAfter m) (h' : s'.IsBehind s) : s'.IsAfter m where
  tokens t ht := h.tokens t (h'.suffix.subset ht)
  ending q hq := h.ending q (h'.ending ▸ hq)

/-! ### The next token -/

/-- Only the end of the stream can be met when no tokens are left. -/
theorem tokens_ne_nil (hpeek : s.peek = .ok t) (hkind : t.kind = kind) (hend : kind ≠ .streamEnd) :
    s.tokens ≠ [] := by
  intro hnil
  rw [peek, hnil] at hpeek
  cases hending : s.ending with
  | error fault =>
    rw [hending] at hpeek
    cases hpeek
  | ok q =>
    rw [hending] at hpeek
    cases hpeek
    exact hend hkind.symm

theorem left_pos (hpeek : s.peek = .ok t) (hkind : t.kind = kind) (hend : kind ≠ .streamEnd) :
    0 < s.left :=
  List.length_pos_iff.2 (tokens_ne_nil hpeek hkind hend)

theorem tokens_of_peek (hpeek : s.peek = .ok t) (hne : s.tokens ≠ []) :
    s.tokens = t :: s.drop.tokens := by
  cases htokens : s.tokens with
  | nil => exact absurd htokens hne
  | cons t' ts =>
    rw [peek, htokens] at hpeek
    cases hpeek
    exact congrArg (t :: ·) (congrArg List.tail htokens).symm

theorem head_eq_of_peek {t' : Token} (hpeek : s.peek = .ok t) (ht' : t' ∈ s.tokens.head?) :
    t' = t := by
  have hne : s.tokens ≠ [] := by
    rintro hnil
    rw [hnil] at ht'
    cases ht'
  rw [tokens_of_peek hpeek hne] at ht'
  exact (Option.mem_some.1 ht').symm

theorem IsAfter.le (h : s.IsAfter m) (hpeek : s.peek = .ok t) : m ≤ t.position := by
  by_cases hne : s.tokens = []
  · rw [peek, hne] at hpeek
    cases hending : s.ending with
    | error fault =>
      rw [hending] at hpeek
      cases hpeek
    | ok q =>
      rw [hending] at hpeek
      cases hpeek
      exact h.ending q hending
  · exact h.tokens t (tokens_of_peek hpeek hne ▸ List.mem_cons_self)

/-- What stands behind a token that may begin a mapping. -/
theorem KeysFollow.isOpening (h : s.KeysFollow origin) (hpeek : s.peek = .ok t)
    (hne : s.tokens ≠ []) : t.IsOpening origin s.drop.tokens := by
  have hkeys := h.keys
  rw [tokens_of_peek hpeek hne] at hkeys
  exact hkeys.1

/-- What a token that introduces a mapping stands in front of. -/
theorem KeysFollow.isAfter (h : s.KeysFollow origin) (hpeek : s.peek = .ok t)
    (hne : s.tokens ≠ []) (ht : t.Introduces origin s.drop.tokens) : s.drop.IsAfter t.position where
  tokens := ht.2
  ending q hq := by
    have hlast := h.last q hq
    rw [tokens_of_peek hpeek hne, List.getLast?_cons] at hlast
    rw [← hlast _ rfl]
    cases hbehind : s.drop.tokens.getLast? with
    | none => exact Position.le_refl _
    | some t' => exact ht.2 t' (List.mem_of_getLast? hbehind)

end TokenStream

theorem BeginsWithin.le {s : TokenStream} {t : Token} {m : Position} (h : BeginsWithin m s.tokens)
    (hpeek : s.peek = .ok t) : t.position ≤ m := by
  rw [s.tokens_of_peek hpeek h.ne_nil] at h
  exact h.head_le

namespace TokenStream

/-! ### Marks of nodes -/

/-- A node is marked where the tokens that are left say so. -/
structure Heads (origin : Cursor) (s : TokenStream) (d : Described) : Prop where
  within : ∀ m, BeginsWithin m s.tokens → d.position ≤ m
  after : ∀ m, s.IsAfter m → m ≤ d.position
  indicated : d.IsMissing → BeginsKey origin s.tokens → Indicated origin d.position

/-- The first key of a mapping is marked where the tokens that are left say so. -/
structure HeadsMember (origin : Cursor) (s : TokenStream) (d : Described) : Prop where
  within : ∀ m, BeginsMember origin m s.tokens → d.position ≤ m
  after : ∀ m, s.IsAfter m → m ≤ d.position
  indicated : ∀ m, BeginsMember origin m s.tokens → d.IsMissing → Indicated origin d.position

/-- A mapping is introduced where it is marked, and nothing behind is marked in front, or its first
member is not marked behind. -/
def OpensAt (origin : Cursor) (s : TokenStream) (p : Position) : Prop :=
  Introduced origin p ∧ s.IsAfter p ∨ BeginsMember origin p s.tokens

variable {s : TokenStream} {t : Token} {p : Position} {kind : Token.Kind} {d : Described}

/-- A node that is marked at the next token. -/
theorem heads_of_peek (hpeek : s.peek = .ok t) (hd : d.position = t.position)
    (hmissing : d.IsMissing → t.kind.isContent = false) : s.Heads origin d where
  within _ hm := hd ▸ hm.le hpeek
  after _ hm := hd ▸ hm.le hpeek
  indicated hnot h := by
    rw [tokens_of_peek hpeek h.ne_nil] at h
    exact hd ▸ h.indicated (hmissing hnot)

/-- In front of a property a node is marked where it is behind. -/
theorem Heads.of_property (h : s.drop.Heads origin d) (hpeek : s.peek = .ok t)
    (hproperty : t.kind.isProperty) : s.Heads origin d where
  within m hm := by
    rw [tokens_of_peek hpeek hm.ne_nil] at hm
    refine h.within m (hm.tail ?_ ?_)
    · intro hkind
      rw [hkind] at hproperty
      cases hproperty
    · cases hkind : t.kind <;> first | rfl | (rw [hkind] at hproperty; cases hproperty)
  after m hm := h.after m (hm.behind s.isBehind_drop)
  indicated hnot hkey := by
    rw [tokens_of_peek hpeek hkey.ne_nil] at hkey
    exact h.indicated hnot (hkey.tail hproperty)

/-- Behind the token of its key a member begins as the key does. -/
theorem Heads.headsMember (h : s.drop.Heads origin d) (hpeek : s.peek = .ok t)
    (hkind : t.kind = .key) : s.HeadsMember origin d where
  within m hm := by
    have hcomes := hm.comes
    rw [tokens_of_peek hpeek hcomes.ne_nil] at hcomes
    exact h.within m (.inl (hcomes.tail (by simp [hkind])))
  after m hm := h.after m (hm.behind s.isBehind_drop)
  indicated m hm hnot := by
    obtain ⟨t', ht', ⟨-, hbegins⟩ | ⟨hvalue, -⟩⟩ := hm.head
    · exact h.indicated hnot hbegins
    · rw [head_eq_of_peek hpeek ht', hkind] at hvalue
      cases hvalue

/-- A member without a key begins with its colon. -/
theorem headsMember_of_peek (hpeek : s.peek = .ok t) (hkind : t.kind = .value)
    (hd : d.position = t.position) : s.HeadsMember origin d where
  within _ hm := hd ▸ BeginsWithin.le (.inl hm.comes) hpeek
  after _ hm := hd ▸ hm.le hpeek
  indicated _ hm _ := by
    obtain ⟨t', ht', ⟨hkey, -⟩ | ⟨-, hcolon⟩⟩ := hm.head
    · rw [head_eq_of_peek hpeek ht', hkind] at hkey
      cases hkey
    · rw [head_eq_of_peek hpeek ht'] at hcolon
      exact hd ▸ hcolon

theorem kind_of_beginsMember {m : Position} (h : BeginsMember origin m s.tokens)
    (hpeek : s.peek = .ok t) : t.kind = .key ∨ t.kind = .value := by
  obtain ⟨t', ht', hkind⟩ := h.head
  rw [head_eq_of_peek hpeek ht'] at hkind
  exact hkind.imp (·.1) (·.1)

/-- What stands behind the start of a mapping. -/
theorem KeysFollow.opensAt (h : s.KeysFollow origin) (hpeek : s.peek = .ok ⟨p, kind⟩)
    (hkind : kind = .flowMappingStart ∨ kind = .blockMappingStart) : s.drop.OpensAt origin p := by
  have hend : kind ≠ .streamEnd := by rcases hkind with rfl | rfl <;> nofun
  have hne := tokens_ne_nil hpeek rfl hend
  have hopening : Token.Introduces origin ⟨p, kind⟩ s.drop.tokens ∨
      BeginsMember origin p s.drop.tokens := by
    rcases hkind with rfl | rfl <;> exact h.isOpening hpeek hne
  exact hopening.imp_left fun hintroduces => ⟨hintroduces.1, h.isAfter hpeek hne hintroduces⟩

theorem OpensAt.introduced (h : s.OpensAt origin p) :
    Introduced origin p ∨ BeginsMember origin p s.tokens :=
  h.imp_left (·.1)

/-- A first key that is missing, and not marked behind its mapping. -/
theorem HeadsMember.indicated_of_opensAt (h : s.HeadsMember origin d) (hp : s.OpensAt origin p)
    (hmissing : d.IsMissing) (hle : d.position ≤ p) : Indicated origin d.position := by
  rcases hp with ⟨hintroduced, hafter⟩ | hbegins
  · rw [Position.le_antisymm hle (h.after p hafter)]
    exact hintroduced.indicated
  · exact h.indicated p hbegins hmissing

/-- A key of a pair that is missing, and not marked behind its token. -/
theorem Heads.indicated_of_key (h : s.drop.Heads origin d) (hs : s.KeysFollow origin)
    (hpeek : s.peek = .ok ⟨p, .key⟩) (hmissing : d.IsMissing) (hle : d.position ≤ p) :
    Indicated origin d.position := by
  have hne := tokens_ne_nil hpeek rfl nofun
  rcases hs.isOpening hpeek hne with hintroduces | ⟨hbegins, -⟩
  · rw [Position.le_antisymm hle (h.after p (hs.isAfter hpeek hne hintroduces))]
    exact hintroduces.1.indicated
  · exact h.indicated hmissing hbegins

end TokenStream

end TestScript.Yaml
