import Mathlib.Data.Set.Lattice
import Mathlib.Order.CompletePartialOrder
import TestScript.Script.Grammar

/-!
# Forms of phrases

A form says which lists of tokens are phrases of one kind, and what they mean. It is a grammar
without a reader: a part may be there or not, a repetition may stop anywhere, and nothing says
how a phrase is found.

A form is **typed** by two sets of tokens: those that may open a phrase, and those that may
stand behind a whole phrase and make a longer one of it. Where what may go on is apart from what
may come next, phrases that are put in a row fall apart again in one way only
(`Form.append_unique`), and so one token of lookahead tells where each of them ends.
-/

namespace TestScript.Script

/-- A kind of phrase: the ways to derive one, the tokens that a way spells, and its meaning. -/
structure Form (α : Type) where
  Derivation : Type
  tokens : Derivation → List Token
  meaning : Derivation → α

namespace Form

variable {α β : Type}

/-! ## Building forms -/

/-- One token that has a meaning. -/
def token (means : Token → α → Prop) : Form α where
  Derivation := { x : Token × α // means x.1 x.2 }
  tokens d := [d.val.1]
  meaning d := d.val.2

/-- A phrase of the second form stands behind one of the first. -/
instance : Monad Form where
  pure a := ⟨Unit, fun _ => [], fun _ => a⟩
  bind F G :=
    ⟨Σ d : F.Derivation, (G (F.meaning d)).Derivation,
      fun d => F.tokens d.1 ++ (G (F.meaning d.1)).tokens d.2,
      fun d => (G (F.meaning d.1)).meaning d.2⟩

/-- A phrase that may be missing. -/
def opt (F : Form α) : Form (Option α) where
  Derivation := Option F.Derivation
  tokens d := d.elim [] F.tokens
  meaning d := d.map F.meaning

/-- Any number of phrases. -/
def many (F : Form α) : Form (List α) where
  Derivation := List F.Derivation
  tokens ds := ds.flatMap F.tokens
  meaning ds := ds.map F.meaning

/-! ## Phrases -/

/-- A list of tokens is a phrase with this meaning. -/
def Derives (F : Form α) (w : List Token) (a : α) : Prop :=
  ∃ d, F.tokens d = w ∧ F.meaning d = a

/-- A list of tokens is a phrase. -/
def Spells (F : Form α) (w : List Token) : Prop :=
  ∃ a, F.Derives w a

/-- A list of tokens begins a phrase. -/
def Viable (F : Form α) (w : List Token) : Prop :=
  ∃ more, F.Spells (w ++ more)

/-- A token can be the next one of a phrase. -/
def Next (F : Form α) (w : List Token) (t : Token) : Prop :=
  F.Viable (w ++ [t])

/-- No list of tokens is derived in two ways. -/
def Unambiguous (F : Form α) : Prop :=
  Function.Injective F.tokens

theorem Derives.spells {F : Form α} {w : List Token} {a : α} (h : F.Derives w a) : F.Spells w :=
  ⟨a, h⟩

theorem Spells.viable {F : Form α} {w : List Token} (h : F.Spells w) : F.Viable w :=
  ⟨[], by simpa using h⟩

theorem Viable.of_append {F : Form α} {w v : List Token} (h : F.Viable (w ++ v)) :
    F.Viable w := by
  obtain ⟨more, h⟩ := h
  exact ⟨v ++ more, by simpa using h⟩

/-- What stands behind the beginning of a phrase begins with a token that can be next. -/
theorem Viable.next {F : Form α} {w v : List Token} {t : Token} (h : F.Viable (w ++ t :: v)) :
    F.Next w t :=
  Viable.of_append (v := v) (by simpa using h)

theorem Next.viable {F : Form α} {w : List Token} {t : Token} (h : F.Next w t) : F.Viable w :=
  Viable.of_append h

/-- The phrases of a form have one meaning each. -/
theorem Unambiguous.derives_unique {F : Form α} (hF : F.Unambiguous) {w : List Token} {a b : α}
    (ha : F.Derives w a) (hb : F.Derives w b) : a = b := by
  obtain ⟨d, rfl, rfl⟩ := ha
  obtain ⟨d', h, rfl⟩ := hb
  rw [hF h]

/-! ### The phrases of each form -/

@[simp] theorem derives_token {means : Token → α → Prop} {w : List Token} {a : α} :
    (token means).Derives w a ↔ ∃ t, w = [t] ∧ means t a := by
  constructor
  · intro h
    obtain ⟨⟨⟨t, b⟩, h⟩, rfl, rfl⟩ := h
    exact ⟨t, rfl, h⟩
  · intro h
    obtain ⟨t, rfl, h⟩ := h
    exact ⟨⟨⟨t, a⟩, h⟩, rfl, rfl⟩

@[simp] theorem derives_pure {a b : α} {w : List Token} :
    (pure a : Form α).Derives w b ↔ w = [] ∧ a = b := by
  constructor
  · intro h
    obtain ⟨_, rfl, rfl⟩ := h
    exact ⟨rfl, rfl⟩
  · intro h
    obtain ⟨rfl, rfl⟩ := h
    exact ⟨(), rfl, rfl⟩

theorem derives_bind {F : Form α} {G : α → Form β} {w : List Token} {b : β} :
    (F >>= G).Derives w b ↔ ∃ u v a, w = u ++ v ∧ F.Derives u a ∧ (G a).Derives v b := by
  constructor
  · intro h
    obtain ⟨⟨d, e⟩, rfl, rfl⟩ := h
    exact ⟨_, _, _, rfl, ⟨d, rfl, rfl⟩, ⟨e, rfl, rfl⟩⟩
  · intro h
    obtain ⟨_, _, _, rfl, ⟨d, rfl, rfl⟩, ⟨e, rfl, rfl⟩⟩ := h
    exact ⟨⟨d, e⟩, rfl, rfl⟩

@[simp] theorem derives_opt {F : Form α} {w : List Token} {a : Option α} :
    F.opt.Derives w a ↔ (w = [] ∧ a = none) ∨ ∃ b, a = some b ∧ F.Derives w b := by
  constructor
  · intro h
    obtain ⟨_ | d, rfl, rfl⟩ := h
    · exact .inl ⟨rfl, rfl⟩
    · exact .inr ⟨_, rfl, d, rfl, rfl⟩
  · intro h
    rcases h with ⟨rfl, rfl⟩ | ⟨_, rfl, d, rfl, rfl⟩
    · exact ⟨none, rfl, rfl⟩
    · exact ⟨some d, rfl, rfl⟩

@[simp] theorem derives_many_nil {F : Form α} {w : List Token} :
    F.many.Derives w [] ↔ w = [] := by
  constructor
  · intro h
    obtain ⟨_ | ⟨d, ds⟩, rfl, h⟩ := h
    · rfl
    · cases h
  · intro h
    obtain rfl := h
    exact ⟨[], rfl, rfl⟩

theorem derives_many_cons {F : Form α} {w : List Token} {a : α} {as : List α} :
    F.many.Derives w (a :: as) ↔
      ∃ u v, w = u ++ v ∧ F.Derives u a ∧ F.many.Derives v as := by
  constructor
  · intro h
    obtain ⟨_ | ⟨d, ds⟩, rfl, h⟩ := h
    · cases h
    · obtain ⟨rfl, rfl⟩ := List.cons.inj h
      exact ⟨_, _, rfl, ⟨d, rfl, rfl⟩, ⟨ds, rfl, rfl⟩⟩
  · intro h
    obtain ⟨_, _, rfl, ⟨d, rfl, rfl⟩, ⟨ds, rfl, rfl⟩⟩ := h
    exact ⟨d :: ds, rfl, rfl⟩

/-! ## Phrases in a row

Behind a phrase of `F` with meaning `a` stands one of `G a`. -/

/-- No token that goes on with a phrase opens the phrase behind it. -/
def Separated (F : Form α) (G : α → Form β) : Prop :=
  ∀ u a t, F.Derives u a → F.Next u t → ¬ (G a).Next [] t

/-- A beginning of `F` at which it stops is the whole part of `F` in a phrase of both. -/
theorem append_unique {F : Form α} {G : α → Form β} (hsep : Separated F G)
    {u u' x v : List Token} {a : α} (hu : F.Viable u) (hx : ∀ t ∈ x.head?, ¬ F.Next u t)
    (ha : F.Derives u' a) (hv : (G a).Viable v) (h : u ++ x = u' ++ v) : u = u' ∧ x = v := by
  rcases List.append_eq_append_iff.1 h with ⟨c, rfl, rfl⟩ | ⟨c, rfl, rfl⟩
  -- Between the two cuts nothing can stand: it would go on with the shorter of the beginnings.
  · cases c with
    | nil => simp
    | cons t c => exact absurd ha.spells.viable.next (hx t (by simp))
  · cases c with
    | nil => simp
    | cons t c => exact absurd (Viable.next (w := []) hv) (hsep _ _ _ ha hu.next)

section Bind

variable {F : Form α} {G : α → Form β} {u v : List Token} {a : α} {t : Token}

/-- Nothing in front of the second phrase goes on with the first one. -/
theorem Separated.stops (hsep : Separated F G) (ha : F.Derives u a) (hv : (G a).Viable v) :
    ∀ s ∈ v.head?, ¬ F.Next u s := by
  intro s hs hnext
  obtain ⟨r, rfl⟩ := List.head?_eq_some_iff.1 hs
  exact hsep u a s ha hnext (Viable.next (w := []) hv)

theorem Derives.viable_bind (hu : F.Derives u a) (hv : (G a).Viable v) :
    (F >>= G).Viable (u ++ v) := by
  obtain ⟨more, b, hb⟩ := hv
  exact ⟨more, b, derives_bind.2 ⟨u, v ++ more, a, by simp, hu, hb⟩⟩

theorem Viable.bind (hG : ∀ a, (G a).Viable []) (hu : F.Viable u) : (F >>= G).Viable u := by
  obtain ⟨more, a, ha⟩ := hu
  exact Viable.of_append (v := more) (by simpa using ha.viable_bind (hG a))

/-- Where `F` stops behind a whole phrase, the next tokens are those of the phrase behind it. -/
theorem next_bind_of_derives (hF : F.Unambiguous) (hsep : Separated F G)
    (hG : ∀ a, (G a).Viable []) (ha : F.Derives u a) (hv : ∀ s ∈ v.head?, ¬ F.Next u s) :
    (F >>= G).Next (u ++ v) t ↔ (G a).Next v t ∨ v = [] ∧ F.Next u t := by
  constructor
  · intro h
    obtain ⟨more, b, hb⟩ := h
    obtain ⟨u', v', a', h, ha', hb'⟩ := derives_bind.1 hb
    -- `F` goes on with `t` only right behind its phrase.
    by_cases hstop : v = [] ∧ F.Next u t
    · exact .inr hstop
    · have hx : ∀ s ∈ (v ++ t :: more).head?, ¬ F.Next u s := by
        cases v with
        | nil => simpa using hstop
        | cons s v => simpa using hv
      obtain ⟨rfl, rfl⟩ := append_unique hsep ha.spells.viable hx ha' hb'.spells.viable
        (by simpa using h)
      rw [hF.derives_unique ha ha']
      exact .inl ⟨more, b, by simpa using hb'⟩
  · intro h
    rcases h with h | ⟨rfl, h⟩
    · simpa [Next] using ha.viable_bind h
    · simpa [Next] using Viable.bind hG h

/-- Inside a phrase of `F` nothing of the phrase behind it is next. -/
theorem next_bind_of_not_spells (hsep : Separated F G) (hG : ∀ a, (G a).Viable [])
    (hu : F.Viable u) (hw : ¬ F.Spells u) : (F >>= G).Next u t ↔ F.Next u t := by
  constructor
  · intro h
    obtain ⟨more, b, hb⟩ := h
    obtain ⟨u', v', a', h, ha', hb'⟩ := derives_bind.1 hb
    by_contra hstop
    obtain ⟨rfl, -⟩ := append_unique (x := t :: more) hsep hu (by simpa using hstop) ha'
      hb'.spells.viable (by simpa using h)
    exact hw ha'.spells
  · exact fun h => Viable.bind hG h

theorem not_spells_bind (hsep : Separated F G) (hu : F.Viable u) (hw : ¬ F.Spells u) :
    ¬ (F >>= G).Spells u := by
  intro h
  obtain ⟨b, hb⟩ := h
  obtain ⟨u', v', a', h, ha', hb'⟩ := derives_bind.1 hb
  obtain ⟨rfl, -⟩ := append_unique (x := []) hsep hu (by simp) ha' hb'.spells.viable
    (by simpa using h)
  exact hw ha'.spells

/-- The first token of two phrases in a row is the first of one of them. -/
theorem next_nil_bind (h : (F >>= G).Next [] t) :
    F.Next [] t ∨ ∃ a, F.Derives [] a ∧ (G a).Next [] t := by
  obtain ⟨more, b, hb⟩ := h
  obtain ⟨u, v, a, h, ha, hb⟩ := derives_bind.1 hb
  cases u with
  | nil =>
    obtain rfl : t :: more = v := by simpa using h
    exact .inr ⟨a, ha, more, b, hb⟩
  | cons s u =>
    obtain ⟨rfl, -⟩ := List.cons.inj h
    exact .inl (Viable.next (w := []) ha.spells.viable)

theorem Unambiguous.bind (hF : F.Unambiguous) (hG : ∀ a, (G a).Unambiguous)
    (hsep : Separated F G) : (F >>= G).Unambiguous := by
  intro p q h
  obtain ⟨d, e⟩ := p
  obtain ⟨d', e'⟩ := q
  have hd : F.Derives (F.tokens d) (F.meaning d) := ⟨d, rfl, rfl⟩
  have he : (G (F.meaning d)).Spells ((G (F.meaning d)).tokens e) := ⟨_, e, rfl, rfl⟩
  have hd' : F.Derives (F.tokens d') (F.meaning d') := ⟨d', rfl, rfl⟩
  have he' : (G (F.meaning d')).Spells ((G (F.meaning d')).tokens e') := ⟨_, e', rfl, rfl⟩
  obtain ⟨htokens, hrest⟩ :=
    append_unique hsep hd.spells.viable (hsep.stops hd he.viable) hd' he'.viable h
  obtain rfl := hF htokens
  obtain rfl := hG _ hrest
  rfl

end Bind

/-! ## Types

`first` holds the tokens that open a phrase, `more` those that go on with a whole one. -/

/-- A form whose phrases are told apart by `first` and `more`. -/
structure Typed (F : Form α) (first more : Set Token) : Prop where
  unambiguous : F.Unambiguous
  viable : F.Viable []
  of_first : ∀ t, F.Next [] t → t ∈ first
  of_more : ∀ w t, F.Spells w → F.Next w t → t ∈ more

theorem Typed.mono {F : Form α} {first more first' more' : Set Token} (h : F.Typed first more)
    (hf : first ⊆ first') (hm : more ⊆ more') : F.Typed first' more' where
  unambiguous := h.unambiguous
  viable := h.viable
  of_first t ht := hf (h.of_first t ht)
  of_more w t hw ht := hm (h.of_more w t hw ht)

theorem Typed.token {means : Token → α → Prop} {first : Set Token}
    (hone : ∀ t a b, means t a → means t b → a = b) (hsome : ∃ t a, means t a)
    (hfirst : ∀ t a, means t a → t ∈ first) : (token means).Typed first ∅ where
  unambiguous := by
    intro h₁ h₂ h
    obtain ⟨⟨t, a⟩, ha⟩ := h₁
    obtain ⟨⟨s, b⟩, hb⟩ := h₂
    obtain ⟨rfl, -⟩ := List.cons.inj h
    obtain rfl := hone t a b ha hb
    rfl
  viable := by
    obtain ⟨t, a, h⟩ := hsome
    exact ⟨[t], a, derives_token.2 ⟨t, rfl, h⟩⟩
  of_first := by
    intro t h
    obtain ⟨more, a, h⟩ := h
    obtain ⟨s, hs, h⟩ := derives_token.1 h
    obtain ⟨rfl, -⟩ := List.cons.inj hs
    exact hfirst t a h
  of_more := by
    intro w t hw hnext
    obtain ⟨a, h⟩ := hw
    obtain ⟨more, b, h'⟩ := hnext
    obtain ⟨s, rfl, -⟩ := derives_token.1 h
    obtain ⟨s', hs, -⟩ := derives_token.1 h'
    simp at hs

theorem Typed.pure (a : α) : (Pure.pure a : Form α).Typed ∅ ∅ where
  unambiguous _ _ _ := rfl
  viable := ⟨[], a, derives_pure.2 ⟨rfl, rfl⟩⟩
  of_first := by
    intro t h
    obtain ⟨more, b, h⟩ := h
    simp at h
  of_more := by
    intro w t _ h
    obtain ⟨more, b, h⟩ := h
    simp at h

/-- A phrase that goes on only with tokens that do not open the next phrase is apart from it. -/
theorem Typed.separated {F : Form α} {G : α → Form β} {first more first' more' : Set Token}
    (hF : F.Typed first more) (hG : ∀ a, (G a).Typed first' more') (h : Disjoint more first') :
    Separated F G :=
  fun u a t ha hnext hopen =>
    Set.disjoint_left.1 h (hF.of_more u t ha.spells hnext) ((hG a).of_first t hopen)

/-- The first token is one of the second phrase only where the first one may be empty, and what
goes on with both is what goes on with the first only where the second one may be empty. -/
theorem Typed.bind {F : Form α} {G : α → Form β} {f m f' m' first more : Set Token}
    (hF : F.Typed f m) (hG : ∀ a, (G a).Typed f' m') (h : Disjoint m f') (hf : f ⊆ first)
    (hf' : F.Spells [] → f' ⊆ first) (hm : (∃ a, (G a).Spells []) → m ⊆ more)
    (hm' : m' ⊆ more) : (F >>= G).Typed first more := by
  have hsep := hF.separated hG h
  refine ⟨hF.unambiguous.bind (fun a => (hG a).unambiguous) hsep,
    Viable.bind (fun a => (hG a).viable) hF.viable, ?_, ?_⟩
  · intro t ht
    rcases next_nil_bind ht with ht | ⟨a, ha, ht⟩
    · exact hf (hF.of_first t ht)
    · exact hf' ha.spells ((hG a).of_first t ht)
  · intro w t hw ht
    obtain ⟨b, hb⟩ := hw
    obtain ⟨u, v, a, rfl, ha, hb⟩ := derives_bind.1 hb
    rcases (next_bind_of_derives hF.unambiguous hsep (fun a => (hG a).viable) ha
      (hsep.stops ha hb.spells.viable)).1 ht with hnext | ⟨rfl, hnext⟩
    · exact hm' ((hG a).of_more v t hb.spells hnext)
    · exact hm ⟨a, hb.spells⟩ (hF.of_more u t ha.spells hnext)

theorem viable_opt {F : Form α} {w : List Token} : F.opt.Viable w ↔ w = [] ∨ F.Viable w := by
  constructor
  · intro h
    obtain ⟨more, a, h⟩ := h
    rcases derives_opt.1 h with ⟨h, -⟩ | ⟨b, -, h⟩
    · exact .inl (List.append_eq_nil_iff.1 h).1
    · exact .inr ⟨more, b, h⟩
  · intro h
    rcases h with rfl | ⟨more, a, h⟩
    · exact ⟨[], none, by simp⟩
    · exact ⟨more, some a, by simpa using h⟩

theorem next_opt {F : Form α} {w : List Token} {t : Token} :
    F.opt.Next w t ↔ F.Next w t := by
  simp [Next, viable_opt]

theorem Typed.opt {F : Form α} {first more : Set Token} (hF : F.Typed first more)
    (hne : ¬ F.Spells []) : F.opt.Typed first (first ∪ more) where
  unambiguous := by
    have hne' : ∀ d, F.tokens d ≠ [] := fun d h => hne ⟨F.meaning d, d, h, rfl⟩
    rintro (_ | d) (_ | d') h
    · rfl
    · exact absurd h.symm (hne' d')
    · exact absurd h (hne' d)
    · exact congrArg some (hF.unambiguous h)
  viable := viable_opt.2 (.inl rfl)
  of_first t ht := hF.of_first t (next_opt.1 ht)
  of_more := by
    intro w t hw ht
    obtain ⟨a, h⟩ := hw
    rcases derives_opt.1 h with ⟨rfl, -⟩ | ⟨b, -, h⟩
    · exact .inl (hF.of_first t (next_opt.1 ht))
    · exact .inr (hF.of_more w t h.spells (next_opt.1 ht))

/-- What stands behind the first of many phrases, if there is a first one. -/
def others (F : Form α) : Option α → Form (List α)
  | some a => do
    let as ← F.many
    return a :: as
  | none => return []

theorem derives_many {F : Form α} {w : List Token} {as : List α} :
    F.many.Derives w as ↔ (F.opt >>= F.others).Derives w as := by
  rw [derives_bind]
  cases as with
  | nil =>
    constructor
    · intro h
      exact ⟨[], [], none, by simpa using h, by simp, by simp [others]⟩
    · intro h
      obtain ⟨u, v, a, rfl, ha, hv⟩ := h
      cases a with
      | none => simp_all [others]
      | some a => simp [others, derives_bind] at hv
  | cons a as =>
    rw [derives_many_cons]
    constructor
    · intro h
      obtain ⟨u, v, rfl, ha, has⟩ := h
      exact ⟨u, v, some a, rfl, by simpa using ha, by simpa [others, derives_bind] using has⟩
    · intro h
      obtain ⟨u, v, b, rfl, hb, hv⟩ := h
      cases b with
      | none => simp [others] at hv
      | some b =>
        obtain ⟨x, y, cs, rfl, hcs, rfl, h⟩ :
            ∃ x y cs, v = x ++ y ∧ F.many.Derives x cs ∧ y = [] ∧ b :: cs = a :: as := by
          simpa [others, derives_bind] using hv
        obtain ⟨rfl, rfl⟩ := List.cons.inj h
        rw [List.append_nil]
        exact ⟨u, x, rfl, by simpa using hb, hcs⟩

theorem viable_many {F : Form α} {w : List Token} :
    F.many.Viable w ↔ w = [] ∨ (F >>= fun _ => F.many).Viable w := by
  constructor
  · intro h
    obtain ⟨more, as, h⟩ := h
    cases as with
    | nil => simp_all
    | cons a as =>
      obtain ⟨u, v, h, ha, has⟩ := derives_many_cons.1 h
      exact .inr ⟨more, as, derives_bind.2 ⟨u, v, a, h, ha, has⟩⟩
  · intro h
    rcases h with rfl | ⟨more, as, h⟩
    · exact ⟨[], [], by simp⟩
    · obtain ⟨u, v, a, h, ha, has⟩ := derives_bind.1 h
      exact ⟨more, a :: as, derives_many_cons.2 ⟨u, v, h, ha, has⟩⟩

theorem next_many {F : Form α} {w : List Token} {t : Token} :
    F.many.Next w t ↔ (F >>= fun _ => F.many).Next w t := by
  simp [Next, viable_many]

theorem Typed.first_many {F : Form α} {first more : Set Token} (hF : F.Typed first more)
    (hne : ¬ F.Spells []) {t : Token} (ht : F.many.Next [] t) : t ∈ first := by
  rcases next_nil_bind (next_many.1 ht) with ht | ⟨a, ha, -⟩
  · exact hF.of_first t ht
  · exact absurd ha.spells hne

/-- Phrases that do not go on with what opens them can stand one after the other. -/
theorem Typed.separated_many {F : Form α} {first more : Set Token} (hF : F.Typed first more)
    (hne : ¬ F.Spells []) (h : Disjoint more first) : Separated F fun _ => F.many :=
  fun u _ t ha hnext hopen =>
    Set.disjoint_left.1 h (hF.of_more u t ha.spells hnext) (hF.first_many hne hopen)

theorem Typed.many {F : Form α} {first more : Set Token} (hF : F.Typed first more)
    (hne : ¬ F.Spells []) (h : Disjoint more first) : F.many.Typed first (first ∪ more) where
  unambiguous := by
    have hsep := hF.separated_many hne h
    have hne' : ∀ d, F.tokens d ≠ [] := fun d h => hne ⟨F.meaning d, d, h, rfl⟩
    intro (ds : List F.Derivation) (ds' : List F.Derivation) htokens
    change ds.flatMap F.tokens = ds'.flatMap F.tokens at htokens
    -- The first phrases end in the same place, and so do all behind them.
    induction ds generalizing ds' with
    | nil =>
      cases ds' with
      | nil => rfl
      | cons d' ds' => simp_all
    | cons d ds ih =>
      cases ds' with
      | nil => simp_all
      | cons d' ds' =>
        have hd : F.Derives (F.tokens d) (F.meaning d) := ⟨d, rfl, rfl⟩
        have hds : F.many.Spells (ds.flatMap F.tokens) := ⟨_, ds, rfl, rfl⟩
        have hd' : F.Derives (F.tokens d') (F.meaning d') := ⟨d', rfl, rfl⟩
        have hds' : F.many.Spells (ds'.flatMap F.tokens) := ⟨_, ds', rfl, rfl⟩
        obtain ⟨hhead, hrest⟩ := append_unique hsep hd.spells.viable
          (hsep.stops hd hds.viable) hd' hds'.viable htokens
        rw [hF.unambiguous hhead, ih hrest]
  viable := viable_many.2 (.inl rfl)
  of_first t ht := hF.first_many hne ht
  of_more := by
    have hsep := hF.separated_many hne h
    intro w t hw ht
    obtain ⟨as, has⟩ := hw
    induction as generalizing w with
    | nil =>
      obtain rfl := derives_many_nil.1 has
      exact .inl (hF.first_many hne ht)
    | cons a as ih =>
      obtain ⟨u, v, rfl, ha, has⟩ := derives_many_cons.1 has
      rcases (next_bind_of_derives hF.unambiguous hsep (fun _ => viable_many.2 (.inl rfl)) ha
        (hsep.stops ha has.spells.viable)).1 (next_many.1 ht) with hnext | ⟨rfl, hnext⟩
      · exact ih v hnext has
      · exact .inr (hF.of_more u t ha.spells hnext)

/-! ## Forms with the same phrases -/

/-- Two forms have the same phrases, with the same meanings. -/
def Same (F G : Form α) : Prop :=
  ∀ w a, F.Derives w a ↔ G.Derives w a

theorem Same.refl (F : Form α) : F.Same F :=
  fun _ _ => Iff.rfl

theorem Same.symm {F G : Form α} (h : F.Same G) : G.Same F :=
  fun w a => (h w a).symm

theorem Same.trans {F G H : Form α} (hFG : F.Same G) (hGH : G.Same H) : F.Same H :=
  fun w a => (hFG w a).trans (hGH w a)

theorem Same.bind {F F' : Form α} {G G' : α → Form β} (hF : F.Same F')
    (hG : ∀ a, (G a).Same (G' a)) : (F >>= G).Same (F' >>= G') := by
  intro w b
  simp only [derives_bind, hF _ _, hG _ _ _]

theorem same_bind_assoc {γ : Type} {F : Form α} {G : α → Form β} {H : β → Form γ} :
    (F >>= G >>= H).Same (F >>= fun a => G a >>= H) := by
  intro w c
  simp only [derives_bind]
  constructor
  · intro h
    obtain ⟨x, z, b, rfl, ⟨u, v, a, rfl, ha, hb⟩, hc⟩ := h
    exact ⟨u, v ++ z, a, List.append_assoc .., ha, v, z, b, rfl, hb, hc⟩
  · intro h
    obtain ⟨u, x, a, rfl, ha, v, z, b, rfl, hb, hc⟩ := h
    exact ⟨u ++ v, z, b, (List.append_assoc ..).symm, ⟨u, v, a, rfl, ha, hb⟩, hc⟩

theorem same_pure_bind {a : α} {G : α → Form β} : (Pure.pure a >>= G).Same (G a) := by
  intro w b
  rw [derives_bind]
  constructor
  · intro h
    obtain ⟨u, v, a', rfl, ha, hb⟩ := h
    obtain ⟨rfl, rfl⟩ := derives_pure.1 ha
    exact hb
  · exact fun h => ⟨[], w, a, rfl, derives_pure.2 ⟨rfl, rfl⟩, h⟩

theorem derives_opt_bind_iff {F : Form α} {G : Option α → Form β} {w : List Token} {b : β} :
    (F.opt >>= G).Derives w b ↔
      (G none).Derives w b ∨ (F >>= fun a => G (some a)).Derives w b := by
  rw [derives_bind, derives_bind]
  constructor
  · intro h
    obtain ⟨u, v, a, rfl, ha, hb⟩ := h
    rcases derives_opt.1 ha with ⟨rfl, rfl⟩ | ⟨a', rfl, ha'⟩
    · exact .inl hb
    · exact .inr ⟨u, v, a', rfl, ha', hb⟩
  · intro h
    rcases h with hb | ⟨u, v, a, rfl, ha, hb⟩
    · exact ⟨[], w, none, rfl, derives_opt.2 (.inl ⟨rfl, rfl⟩), hb⟩
    · exact ⟨u, v, some a, rfl, derives_opt.2 (.inr ⟨a, rfl, ha⟩), hb⟩

theorem derives_map {F : Form α} {f : α → β} {w : List Token} {b : β} :
    (F >>= fun a => pure (f a)).Derives w b ↔ ∃ a, F.Derives w a ∧ b = f a := by
  rw [derives_bind]
  constructor
  · intro h
    obtain ⟨u, v, a, rfl, ha, hb⟩ := h
    obtain ⟨rfl, rfl⟩ := derives_pure.1 hb
    exact ⟨a, by rwa [List.append_nil], rfl⟩
  · intro h
    obtain ⟨a, ha, rfl⟩ := h
    exact ⟨w, [], a, (List.append_nil w).symm, ha, derives_pure.2 ⟨rfl, rfl⟩⟩

end Form

end TestScript.Script
