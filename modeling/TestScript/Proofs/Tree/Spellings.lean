import TestScript.Proofs.Tree.Agreement

/-!
# Spellings of markers and of reasons to skip

The names of `markers` are a list, or one scalar with blanks between them; the reason of `skip` is a
scalar, or the list of its parts. Below the root of a document, or below any of its steps, one
spelling of a value can take the place of another: the document gives the same script as before, or
gives none as before (`read_iff_of_respelled`).

An entry is replaced in its place, however deep it stands. Its section then has the same keys, in
the same columns, and they hold what they held; so what is shown of a section at one level carries
over to the step that it is the value of, and from there to the section around the step.
-/

namespace TestScript

/-! ## Words -/

namespace Text

/-- Names with blanks between them. Blanks behind the last one do no harm. -/
inductive Spaced : List String → List Char → Prop
  | last (name : String) {blanks : List Char} (hblanks : ∀ c ∈ blanks, isBlank c) :
    Spaced [name] (name.toList ++ blanks)
  | cons (name : String) {names : List String} {blanks cs : List Char} (hne : blanks ≠ [])
    (hblanks : ∀ c ∈ blanks, isBlank c) (h : Spaced names cs) :
    Spaced (name :: names) (name.toList ++ (blanks ++ cs))

/-- A text that is not empty and holds no blanks. -/
def IsWord (s : String) : Prop :=
  s ≠ "" ∧ ∀ c ∈ s.toList, isBlank c = false

instance : DecidablePred IsWord :=
  fun s => @instDecidableAnd (s ≠ "") _ _ (List.decidableBAll (isBlank · = false) s.toList)

theorem wordsOf_blanks_append {blanks cs : List Char} (h : ∀ c ∈ blanks, isBlank c) :
    wordsOf (blanks ++ cs) = wordsOf cs := by
  induction blanks with
  | nil => rfl
  | cons c blanks ih =>
    rw [List.cons_append, wordsOf, if_pos (h c List.mem_cons_self)]
    exact ih fun d hd => h d (List.mem_cons_of_mem _ hd)

/-- A word ends in front of a blank, or with the text. -/
theorem wordsOf_word_append {word cs : List Char} (hne : word ≠ [])
    (hword : ∀ c ∈ word, isBlank c = false) (hcs : cs = [] ∨ beginsBlank cs = true) :
    wordsOf (word ++ cs) = word :: wordsOf cs := by
  induction word with
  | nil => exact absurd rfl hne
  | cons c word ih =>
    have hc : ¬ isBlank c = true := by simp [hword c List.mem_cons_self]
    rw [List.cons_append, wordsOf, if_neg hc]
    cases word with
    | nil =>
      rcases hcs with rfl | hcs
      · rfl
      · rw [List.nil_append, if_pos hcs]
    | cons d word =>
      have hd : ¬ beginsBlank (d :: word ++ cs) = true := by
        simp [beginsBlank, hword d (by simp)]
      rw [if_neg hd, ih (List.cons_ne_nil _ _) fun c hc => hword c (List.mem_cons_of_mem _ hc)]
      rfl

theorem beginsBlank_append {blanks : List Char} (cs : List Char) (hne : blanks ≠ [])
    (h : ∀ c ∈ blanks, isBlank c) : beginsBlank (blanks ++ cs) = true := by
  cases blanks with
  | nil => exact absurd rfl hne
  | cons c blanks => exact h c List.mem_cons_self

theorem Spaced.wordsOf_eq {names : List String} {cs : List Char} (h : Spaced names cs)
    (hnames : ∀ name ∈ names, IsWord name) : wordsOf cs = names.map String.toList := by
  induction h with
  | @last name blanks hblanks =>
    obtain ⟨hne, hword⟩ := hnames name List.mem_cons_self
    have hwords : wordsOf blanks = [] := by
      rw [← List.append_nil blanks, wordsOf_blanks_append hblanks, wordsOf]
    have hbegins : blanks = [] ∨ beginsBlank blanks = true := by
      cases blanks with
      | nil => exact .inl rfl
      | cons c blanks => exact .inr (hblanks c List.mem_cons_self)
    rw [wordsOf_word_append (by simpa using hne) hword hbegins, hwords, List.map_singleton]
  | cons name hne hblanks h ih =>
    obtain ⟨hname, hword⟩ := hnames name List.mem_cons_self
    rw [wordsOf_word_append (by simpa using hname) hword (.inr (beginsBlank_append _ hne hblanks)),
      wordsOf_blanks_append hblanks, ih fun n hn => hnames n (List.mem_cons_of_mem _ hn),
      List.map_cons]

/-- The words of a text with blanks in front of its names and between them are these names. -/
theorem words_of_spaced {names : List String} {blanks cs : List Char}
    (hblanks : ∀ c ∈ blanks, isBlank c) (h : Spaced names cs)
    (hnames : ∀ name ∈ names, IsWord name) : words (String.ofList (blanks ++ cs)) = names := by
  rw [words, String.toList_ofList, wordsOf_blanks_append hblanks, h.wordsOf_eq hnames, List.map_map]
  exact List.map_id'' (fun name => String.ofList_toList) names

end Text

namespace Script

open Document (Node Entry)
open Text (isBlank Spaced IsWord)
open Layout

/-! ## Spellings -/

/-- A list with one text an item, and missing items anywhere. -/
inductive Itemized : List String → List Node → Prop
  | nil : Itemized [] []
  | null {texts : List String} {items : List Node} (p : Position) (h : Itemized texts items) :
    Itemized texts (.null p :: items)
  | scalar {texts : List String} {items : List Node} (text : String) (quoted : Bool) (p : Position)
    (h : Itemized texts items) : Itemized (text :: texts) (.scalar text quoted p :: items)

/-- The spellings of some names. -/
inductive SpellsNames (names : List String) : Node → Prop
  | scalar {blanks cs : List Char} (hblanks : ∀ c ∈ blanks, isBlank c) (h : Spaced names cs)
    (quoted : Bool) (p : Position) :
    SpellsNames names (.scalar (String.ofList (blanks ++ cs)) quoted p)
  | list {items : List Node} (h : Itemized names items) (p : Position) :
    SpellsNames names (.list items p)

/-- The spellings of a reason with some parts. -/
inductive SpellsReason (parts : List String) : Node → Prop
  | scalar (quoted : Bool) (p : Position) :
    SpellsReason parts (.scalar (" ".intercalate parts) quoted p)
  | list {items : List Node} (h : Itemized parts items) (p : Position) :
    SpellsReason parts (.list items p)

/-- An entry at a level, in which the value of one `markers` or `skip` is spelled in another way:
that of the entry itself, if it is one of a script or of a step, or of one in the mapping below it. -/
inductive Respelled : Nat → Context → Entry Node → Entry Node → Prop
  | markers {level : Nat} {names : List String} {value value' : Node} (p : Position)
    (hnames : ∀ name ∈ names, IsWord name) (h : SpellsNames names value)
    (h' : SpellsNames names value') :
    Respelled level .body ⟨Keyword.markers.text, p, value⟩ ⟨Keyword.markers.text, p, value'⟩
  | skip {level : Nat} {parts : List String} {value value' : Node} (p : Position)
    (hne : parts ≠ []) (h : SpellsReason parts value) (h' : SpellsReason parts value') :
    Respelled level .body ⟨Keyword.skip.text, p, value⟩ ⟨Keyword.skip.text, p, value'⟩
  | inside {level : Nat} {context context' : Context} {key : String} {e e' : Entry Node}
    (p q : Position) (flow : Bool) (before after : List (Entry Node))
    (hopens : (Role.of key level context).opens = some context')
    (h : Respelled (level + 1) context' e e') :
    Respelled level context ⟨key, p, .mapping (before ++ e :: after) q flow⟩
      ⟨key, p, .mapping (before ++ e' :: after) q flow⟩

theorem Respelled.symm {level : Nat} {context : Context} {e e' : Entry Node}
    (h : Respelled level context e e') : Respelled level context e' e := by
  induction h with
  | markers p hnames h h' => exact .markers p hnames h' h
  | skip p hne h h' => exact .skip p hne h' h
  | inside p q flow before after hopens h ih => exact .inside p q flow before after hopens ih

theorem Respelled.key_eq {level : Nat} {context : Context} {e e' : Entry Node}
    (h : Respelled level context e e') : e.key = e'.key := by
  cases h <;> rfl

theorem Respelled.position_eq {level : Nat} {context : Context} {e e' : Entry Node}
    (h : Respelled level context e e') : e.position = e'.position := by
  cases h <;> rfl

/-! ## What the values say -/

theorem Itemized.texts_eq {texts : List String} {items : List Node} (h : Itemized texts items) :
    (items.filterMap itemText).map Prod.fst = texts := by
  induction h with
  | nil => rfl
  | null p h ih => exact ih
  | scalar text quoted p h ih => simp [itemText, ih]

theorem Itemized.isText {texts : List String} {items : List Node} (h : Itemized texts items) :
    ∀ item ∈ items, IsText item := by
  induction h with
  | nil => simp
  | null p h ih | scalar text quoted p h ih => exact List.forall_mem_cons.2 ⟨trivial, ih⟩

theorem SpellsNames.isTexts {names : List String} {value : Node} (h : SpellsNames names value) :
    IsTexts value := by
  cases h with
  | scalar => trivial
  | list h => exact h.isText

theorem SpellsNames.texts_eq {names : List String} {value : Node} (h : SpellsNames names value)
    (hnames : ∀ name ∈ names, IsWord name) : (texts true value).map Prod.fst = names := by
  cases h with
  | scalar hblanks h =>
    rw [texts, if_pos rfl, Text.words_of_spaced hblanks h hnames, List.map_map]
    exact List.map_id'' (fun _ => rfl) names
  | list h => exact h.texts_eq

theorem SpellsReason.isTexts {parts : List String} {value : Node} (h : SpellsReason parts value) :
    IsTexts value := by
  cases h with
  | scalar => trivial
  | list h => exact h.isText

/-- A list of parts and the scalar of all parts give the same reason. -/
theorem SpellsReason.skipOf_eq {parts : List String} {value : Node} (h : SpellsReason parts value)
    (hne : parts ≠ []) (key : String) (p : Position) :
    skipOf ⟨key, p, value⟩ = ⟨some (" ".intercalate parts), p⟩ := by
  cases h with
  | scalar quoted q => simp [skipOf, texts]
  | @list items h =>
    have hitems : items.filterMap itemText ≠ [] := by
      intro hnil
      rw [← h.texts_eq, hnil] at hne
      exact hne rfl
    simp only [skipOf, texts, if_neg hitems, h.texts_eq]

/-- A keyword below whose entry one value is respelled: it is the respelled entry itself, or it holds
steps, and the entry is one of them. -/
theorem Respelled.of_keyword {d : Nat} {e e' : Entry Node} {k : Keyword}
    (h : Respelled d .body e e') (hd : d ∈ k.depths) (hkey : e.key = k.text) :
    (k = .markers ∧ IsTexts e'.value ∧ markersOf e = markersOf e') ∨
      (k = .skip ∧ IsTexts e'.value ∧ skipOf e = skipOf e') ∨
      (k.shape = .steps ∧ IsMapping e'.value ∧ ∃ before x x' after,
        e.value.entries = before ++ x :: after ∧ e'.value.entries = before ++ x' :: after ∧
          Respelled (d + 1) .steps x x') := by
  cases h with
  | markers p hnames h h' =>
    refine .inl ⟨Keyword.text_injective hkey.symm, h'.isTexts, ?_⟩
    rw [markersOf, markersOf, h.texts_eq hnames, h'.texts_eq hnames]
  | skip p hne h h' =>
    refine .inr (.inl ⟨Keyword.text_injective hkey.symm, h'.isTexts, ?_⟩)
    rw [h.skipOf_eq hne, h'.skipOf_eq hne]
  | inside p q flow before after hopens h =>
    rw [role_of_keyword hd hkey] at hopens
    have hshape := shape_of_opens hopens
    rw [Role.opens, if_pos hshape] at hopens
    cases hopens
    exact .inr (.inr ⟨hshape, trivial, before, _, _, after, rfl, rfl, h⟩)

variable {σ η β : Type} {d : Nat} {e e' : Entry Node} {before after : List (Entry Node)}
  {k : Keyword} {slots : List Slot} {IsStep : Node → Prop} {stepOf : Entry Node → σ}

/-! ## Sections -/

theorem map_clauseOf_replace {f : Entry Node → β} (hkey : e.key = e'.key)
    (hf : e.key = k.text → f e = f e') :
    (clauseOf (before ++ e :: after) k).map f = (clauseOf (before ++ e' :: after) k).map f := by
  rw [clauseOf, clauseOf, List.find?_append, List.find?_append]
  cases before.find? (·.key == k.text) with
  | some x => rfl
  | none =>
    by_cases h : e.key = k.text
    · have h' : e'.key = k.text := hkey ▸ h
      simp [h, h', hf h]
    · have h' : ¬ e'.key = k.text := hkey ▸ h
      simp [h, h']

/-- A clause that has neither names nor a reason nor steps is the same. -/
theorem Respelled.map_clauseOf (h : Respelled d .body e e') (hd : d ∈ k.depths)
    (hk : k ≠ .markers ∧ k ≠ .skip ∧ k.shape ≠ .steps) (f : Entry Node → β) :
    (clauseOf (before ++ e :: after) k).map f = (clauseOf (before ++ e' :: after) k).map f := by
  refine map_clauseOf_replace h.key_eq fun hkey => ?_
  obtain ⟨rfl, -⟩ | ⟨rfl, -⟩ | ⟨hshape, -⟩ := h.of_keyword hd hkey
  · exact absurd rfl hk.1
  · exact absurd rfl hk.2.1
  · exact absurd hshape hk.2.2

theorem Respelled.map_markersOf (h : Respelled d .body e e') (hd : d ∈ Keyword.markers.depths) :
    (clauseOf (before ++ e :: after) .markers).map markersOf =
      (clauseOf (before ++ e' :: after) .markers).map markersOf := by
  refine map_clauseOf_replace h.key_eq fun hkey => ?_
  obtain ⟨-, -, heq⟩ | ⟨hk, -⟩ | ⟨hshape, -⟩ := h.of_keyword hd hkey
  · exact heq
  · cases hk
  · cases hshape

theorem Respelled.map_skipOf (h : Respelled d .body e e') (hd : d ∈ Keyword.skip.depths) :
    (clauseOf (before ++ e :: after) .skip).map skipOf =
      (clauseOf (before ++ e' :: after) .skip).map skipOf := by
  refine map_clauseOf_replace h.key_eq fun hkey => ?_
  obtain ⟨hk, -⟩ | ⟨-, -, heq⟩ | ⟨hshape, -⟩ := h.of_keyword hd hkey
  · cases hk
  · exact heq
  · cases hshape

/-- Respelled steps at a level are steps as before, and the same ones. -/
def KeepsSteps (d : Nat) (IsStep : Node → Prop) (stepOf : Entry Node → σ) : Prop :=
  ∀ e e', Respelled d .steps e e' → IsStep e.value → IsStep e'.value ∧ stepOf e = stepOf e'

theorem holds_iff_of_steps (hk : k.shape = .steps) {value : Node} :
    Holds IsStep k value ↔
      IsMapping value ∧ (k = .steps → value.entries ≠ []) ∧ ∀ e ∈ value.entries, IsStep e.value := by
  cases k with
  | before | after | steps => simp [Holds]
  | _ => cases hk

theorem Respelled.holds (h : Respelled d .body e e') (hd : d ∈ k.depths) (hkey : e.key = k.text)
    (hsteps : KeepsSteps (d + 1) IsStep stepOf) (hholds : Holds IsStep k e.value) :
    Holds IsStep k e'.value := by
  obtain ⟨rfl, htexts, -⟩ | ⟨rfl, htexts, -⟩ |
    ⟨hshape, hmapping, before, x, x', after, hentries, hentries', hx⟩ := h.of_keyword hd hkey
  · exact htexts
  · exact htexts
  · rw [holds_iff_of_steps hshape, hentries] at hholds
    rw [holds_iff_of_steps hshape, hentries']
    obtain ⟨-, -, hall⟩ := hholds
    obtain ⟨hbefore, hall⟩ := List.forall_mem_append.1 hall
    obtain ⟨hstep, hafter⟩ := List.forall_mem_cons.1 hall
    refine ⟨hmapping, fun _ => by simp, List.forall_mem_append.2 ⟨hbefore, ?_⟩⟩
    exact List.forall_mem_cons.2 ⟨(hsteps x x' hx hstep).1, hafter⟩

theorem Respelled.map_stepOf (h : Respelled d .body e e') (hd : d ∈ k.depths)
    (hkey : e.key = k.text) (hk : k.shape = .steps) (hsteps : KeepsSteps (d + 1) IsStep stepOf)
    (hholds : Holds IsStep k e.value) :
    e.value.entries.map stepOf = e'.value.entries.map stepOf := by
  obtain ⟨rfl, -⟩ | ⟨rfl, -⟩ | ⟨-, -, before, x, x', after, hentries, hentries', hx⟩ :=
    h.of_keyword hd hkey
  · cases hk
  · cases hk
  · rw [holds_iff_of_steps hk, hentries] at hholds
    have hstep : IsStep x.value := hholds.2.2 x (by simp)
    rw [hentries, hentries', List.map_append, List.map_append, List.map_cons, List.map_cons,
      (hsteps x x' hx hstep).2]

theorem Respelled.hooksOf_eq (h : Respelled d .body e e') (hd : d ∈ k.depths)
    (hkey : e.key = k.text) (hk : k.shape = .steps) (hsteps : KeepsSteps (d + 1) IsStep stepOf)
    (hholds : Holds IsStep k e.value) : hooksOf stepOf e = hooksOf stepOf e' := by
  rw [hooksOf, hooksOf, h.map_stepOf hd hkey hk hsteps hholds, h.position_eq]

/-- A section stays a section. -/
theorem IsSection.respelled (hslots : ∀ slot ∈ slots, ∀ k ∈ slot.keywords, d ∈ k.depths)
    (hsteps : KeepsSteps (d + 1) IsStep stepOf) (h : Respelled d .body e e')
    (hsection : IsSection slots IsStep (before ++ e :: after)) :
    IsSection slots IsStep (before ++ e' :: after) := by
  obtain ⟨horder, hholds⟩ := hsection
  obtain ⟨slot, hslot, k, hk, hkey⟩ := horder.of_mem (List.mem_map_of_mem (a := e) (by simp))
  obtain ⟨hbefore, hall⟩ := List.forall_mem_append.1 hholds
  obtain ⟨he, hafter⟩ := List.forall_mem_cons.1 hall
  refine ⟨?_, List.forall_mem_append.2 ⟨hbefore, List.forall_mem_cons.2 ⟨?_, hafter⟩⟩⟩
  · rw [List.map_append, List.map_cons] at horder ⊢
    rwa [← h.key_eq]
  · intro k' hk'
    obtain rfl : k = k' := Keyword.text_injective (hkey.symm.trans (h.key_eq.trans hk'))
    exact h.holds (hslots slot hslot k hk) hkey hsteps (he k hkey)

/-! ## Steps -/

theorem Respelled.stepWith_eq {of : (Keyword → Option (Entry Node)) → η}
    (h : Respelled d .body e e') (hd : ∀ k ∈ clauseKeywords, d ∈ k.depths)
    (hof : of (clauseOf (before ++ e :: after)) = of (clauseOf (before ++ e' :: after)))
    (name : String × Position) :
    stepWith of name (clauseOf (before ++ e :: after)) =
      stepWith of name (clauseOf (before ++ e' :: after)) := by
  have hothers : ∀ k ∈ [Keyword.skipEnv, .flaky, .parameterize, .foreach, .use, .input, .output],
      k ∈ clauseKeywords ∧ k ≠ .markers ∧ k ≠ .skip ∧ k.shape ≠ .steps := by
    decide
  have hother : ∀ k ∈ [Keyword.skipEnv, .flaky, .parameterize, .foreach, .use, .input, .output],
      ∀ {β : Type} (f : Entry Node → β),
      (clauseOf (before ++ e :: after) k).map f = (clauseOf (before ++ e' :: after) k).map f :=
    fun k hk _ f => h.map_clauseOf (hd k (hothers k hk).1) (hothers k hk).2 f
  simp only [stepWith, hof, h.map_markersOf (hd .markers (by decide)),
    h.map_skipOf (hd .skip (by decide)), hother .skipEnv (by decide), hother .flaky (by decide),
    hother .parameterize (by decide), hother .foreach (by decide), hother .use (by decide),
    hother .input (by decide), hother .output (by decide)]

/-- The steps at a level are kept if the steps among their hooks are. -/
theorem keepsSteps_step {of : (Keyword → Option (Entry Node)) → η} {hookSlots : List Slot}
    (hd : ∀ k : Keyword, d ∉ k.depths)
    (hslots : ∀ slot ∈ Slot.step hookSlots, ∀ k ∈ slot.keywords, d + 1 ∈ k.depths)
    (hkeywords : ∀ k ∈ clauseKeywords, d + 1 ∈ k.depths)
    (hsteps : KeepsSteps (d + 1 + 1) IsStep stepOf)
    (hof : ∀ before e e' after, Respelled (d + 1) .body e e' →
      IsSection (Slot.step hookSlots) IsStep (before ++ e :: after) →
      of (clauseOf (before ++ e :: after)) = of (clauseOf (before ++ e' :: after))) :
    KeepsSteps d (fun value => IsMapping value ∧
      IsSection (Slot.step hookSlots) IsStep value.entries) (Script.stepOf of) := by
  intro e e' h hstep
  cases h with
  | inside p q flow before after hopens h =>
    rw [role_of_step hd] at hopens
    cases hopens
    obtain ⟨-, hsection⟩ := hstep
    refine ⟨⟨trivial, hsection.respelled hslots hsteps h⟩, ?_⟩
    exact h.stepWith_eq hkeywords (hof before _ _ after h hsection) _

theorem keepsSteps_hookStep : KeepsSteps 3 IsHookStep hookStepOf := by
  have hd : ∀ k : Keyword, 3 ∉ k.depths := by
    intro k
    cases k <;> decide
  have hnone : KeepsSteps (3 + 1 + 1) (fun _ => False) (fun _ => ()) := fun _ _ _ h => h.elim
  exact keepsSteps_step hd (by decide) (by decide) hnone fun _ _ _ _ _ _ => rfl

/-- A section of steps gives the same hooks. -/
theorem Respelled.map_hooksOf (h : Respelled d .body e e') (hd : d ∈ k.depths)
    (hk : k.shape = .steps) (hsteps : KeepsSteps (d + 1) IsStep stepOf)
    (hsection : IsSection slots IsStep (before ++ e :: after)) :
    (clauseOf (before ++ e :: after) k).map (hooksOf stepOf) =
      (clauseOf (before ++ e' :: after) k).map (hooksOf stepOf) :=
  map_clauseOf_replace h.key_eq fun hkey =>
    h.hooksOf_eq hd hkey hk hsteps (hsection.2 e (by simp) k hkey)

theorem keepsSteps_mainStep : KeepsSteps 1 IsMainStep mainStepOf := by
  have hd : ∀ k : Keyword, 1 ∉ k.depths := by
    intro k
    cases k <;> decide
  refine keepsSteps_step hd (by decide) (by decide) keepsSteps_hookStep
    fun before e e' after h hsection => ?_
  rw [ownHooksOf, ownHooksOf, h.map_hooksOf (by decide) rfl keepsSteps_hookStep hsection,
    h.map_hooksOf (by decide) rfl keepsSteps_hookStep hsection]

/-! ## Scripts -/

theorem Respelled.scriptWith_eq (h : Respelled 0 .body e e')
    (hsection : IsSection Slot.script IsMainStep (before ++ e :: after)) :
    scriptWith (clauseOf (before ++ e :: after)) = scriptWith (clauseOf (before ++ e' :: after)) := by
  have hissue : ∀ {β : Type} (f : Entry Node → β),
      (clauseOf (before ++ e :: after) .issue).map f =
        (clauseOf (before ++ e' :: after) .issue).map f :=
    h.map_clauseOf (by decide) (by decide)
  have hsteps : (clauseOf (before ++ e :: after) .steps).map (·.value.entries.map mainStepOf) =
      (clauseOf (before ++ e' :: after) .steps).map (·.value.entries.map mainStepOf) :=
    map_clauseOf_replace h.key_eq fun hkey =>
      h.map_stepOf (by decide) hkey rfl keepsSteps_mainStep (hsection.2 e (by simp) .steps hkey)
  have hhooks : ∀ k ∈ [Keyword.before, .after],
      (clauseOf (before ++ e :: after) k).map (hooksOf mainStepOf) =
        (clauseOf (before ++ e' :: after) k).map (hooksOf mainStepOf) := by
    intro k hk
    have hk' : 0 ∈ k.depths ∧ k.shape = .steps := by
      revert k
      decide
    exact h.map_hooksOf hk'.1 hk'.2 keepsSteps_mainStep hsection
  simp only [scriptWith, hissue, hsteps, h.map_markersOf (by decide), hhooks .before (by decide),
    hhooks .after (by decide)]

/-! ## Places -/

theorem placedEntries_append {context : Context} (es es' : List (Entry Node)) :
    placedEntries d context (es ++ es') =
      placedEntries d context es ++ placedEntries d context es' := by
  induction es with
  | nil => rfl
  | cons e es ih =>
    rw [List.cons_append, placedEntries_cons, ih, ← List.append_assoc, ← placedEntries_cons]

/-- What holds for the entries of a mapping, and for those below them, still holds if it does for one
that is replaced. -/
theorem forall_placedEntries_replace {context : Context} {P : Placed → Prop}
    (h : (∀ x ∈ placedEntries d context [e], P x) → ∀ x ∈ placedEntries d context [e'], P x)
    (hall : ∀ x ∈ placedEntries d context (before ++ e :: after), P x) :
    ∀ x ∈ placedEntries d context (before ++ e' :: after), P x := by
  rw [placedEntries_append, placedEntries_cons, List.forall_mem_append, List.forall_mem_append]
    at hall ⊢
  obtain ⟨hbefore, hentry, hafter⟩ := hall
  exact ⟨hbefore, h hentry, hafter⟩

/-- An entry stands in the column of its level, and no steps are written inline. -/
def Placed.IsAligned (m : Margins) (x : Placed) : Prop :=
  x.entry.position.column = m.base + x.level * m.unit ∧ x.IsBlock

/-- Only steps have to be blocks. Among the clauses of a script or of a step no key names one. -/
theorem isBlock_of_body (hk : k.shape ≠ .steps) (p : Position) (value : Node) :
    Placed.IsBlock ⟨d, .body, ⟨k.text, p, value⟩⟩ := by
  have hrole : Role.of k.text d .body = .keyword k ∨ Role.of k.text d .body = .other := by
    unfold Role.of
    cases hclass : Keyword.classify? k.text d with
    | none => exact .inr rfl
    | some k' =>
      obtain rfl := Keyword.text_injective (Keyword.classify?_eq_some_iff.1 hclass).1
      exact .inl rfl
  rw [Placed.IsBlock, Placed.role]
  obtain hrole | hrole := hrole
  · rw [hrole]
    rintro (hstep | ⟨k', hk', hshape⟩)
    · cases hstep
    · cases hk'
      exact absurd hshape hk
  · rw [hrole]
    rintro (hstep | ⟨k', hk', -⟩)
    · cases hstep
    · cases hk'

theorem isAligned_of_isTexts {m : Margins} {p : Position} {value value' : Node}
    (hk : k.shape ≠ .steps) (hvalue' : IsTexts value')
    (h : ∀ x ∈ placedEntries d .body [⟨k.text, p, value⟩], x.IsAligned m) :
    ∀ x ∈ placedEntries d .body [⟨k.text, p, value'⟩], x.IsAligned m := by
  rw [placedEntries_singleton, List.forall_mem_cons] at h ⊢
  rw [placedBelow_of_isTexts hvalue']
  exact ⟨⟨h.1.1, isBlock_of_body hk p value'⟩, List.forall_mem_nil _⟩

theorem Respelled.isAligned {context : Context} {m : Margins} (h : Respelled d context e e')
    (haligned : ∀ x ∈ placedEntries d context [e], x.IsAligned m) :
    ∀ x ∈ placedEntries d context [e'], x.IsAligned m := by
  induction h with
  | markers p hnames h h' => exact isAligned_of_isTexts (by decide) h'.isTexts haligned
  | skip p hne h h' => exact isAligned_of_isTexts (by decide) h'.isTexts haligned
  | inside p q flow before after hopens h ih =>
    rw [placedEntries_singleton, placedBelow_mapping_of_opens hopens, List.forall_mem_cons]
      at haligned ⊢
    obtain ⟨⟨hcolumn, hblock⟩, hbelow⟩ := haligned
    refine ⟨⟨hcolumn, fun hrole entries q' hvalue => ?_⟩, forall_placedEntries_replace ih hbelow⟩
    -- The mapping has an entry, so it was not written inline.
    cases hvalue
    cases List.append_ne_nil_of_right_ne_nil before (List.cons_ne_nil _ after)
      (hblock hrole _ _ rfl)

/-! ## Documents -/

/-- A document, and the same with the value of one `markers` or `skip` spelled in another way. -/
inductive RespelledRoot : Node → Node → Prop
  | mk {e e' : Entry Node} (before after : List (Entry Node)) (p : Position) (flow : Bool)
    (h : Respelled 0 .body e e') :
    RespelledRoot (.mapping (before ++ e :: after) p flow) (.mapping (before ++ e' :: after) p flow)

theorem RespelledRoot.symm {root root' : Node} (h : RespelledRoot root root') :
    RespelledRoot root' root := by
  cases h with
  | mk before after p flow h => exact .mk before after p flow h.symm

/-- A script stays a script, and the same one. -/
theorem RespelledRoot.read {unit : Nat} {root root' : Node} (h : RespelledRoot root root')
    {ts : List Token} {s : Script} (hts : tokensOf unit root = .ok ts) (hs : ofTokens ts = .ok s) :
    ∃ ts', tokensOf unit root' = .ok ts' ∧ ofTokens ts' = .ok s := by
  cases h with
  | @mk e e' before after p flow h =>
    obtain ⟨hroot, hlaid, rfl⟩ := tokensOf_eq_ok_iff.1 hts
    have hroot' : IsRoot (.mapping (before ++ e' :: after) p flow) := hroot
    have hbase : baseColumn (.mapping (before ++ e :: after) p flow) =
        baseColumn (.mapping (before ++ e' :: after) p flow) := by
      cases before with
      | nil => exact congrArg Position.column h.position_eq
      | cons x before => rfl
    rw [placed_eq hroot, hbase] at hlaid
    rw [placed_eq hroot] at hs
    obtain ⟨hblocks, hsection, hsay⟩ := (reads_script.derives_iff _ s).1
      ⟨fun x hx => (hlaid x hx).accepts, ofTokens_eq_ok.1 hs⟩
    have hsection' : IsSection Slot.script IsMainStep (before ++ e' :: after) :=
      hsection.respelled (by decide) keepsSteps_mainStep h
    have haligned' := forall_placedEntries_replace h.isAligned fun x hx =>
      show x.IsAligned _ from ⟨(hlaid x hx).column_eq, hblocks x hx⟩
    obtain ⟨hacc, hderives⟩ := (reads_script.derives_iff _ s).2
      ⟨fun x hx => (haligned' x hx).2, hsection', hsay.trans (h.scriptWith_eq hsection)⟩
    refine ⟨_, tokensOf_eq_ok_iff.2 ⟨hroot', ?_, rfl⟩, ofTokens_eq_ok.2 ?_⟩
    · rw [placed_eq hroot']
      exact fun x hx => ⟨(haligned' x hx).1, hacc x hx⟩
    · rw [placed_eq hroot']
      exact hderives

/-- **Spellings of names and of reasons to skip mean the same.** Whatever else the document holds, it
gives a script with the one spelling exactly if it gives one with the other, and it is the same
script. -/
theorem read_iff_of_respelled {root root' : Node} (h : RespelledRoot root root') (unit : Nat)
    (s : Script) :
    (∃ ts, tokensOf unit root = .ok ts ∧ ofTokens ts = .ok s) ↔
      ∃ ts, tokensOf unit root' = .ok ts ∧ ofTokens ts = .ok s :=
  ⟨fun ⟨_, hts, hs⟩ => h.read hts hs, fun ⟨_, hts, hs⟩ => h.symm.read hts hs⟩

/-- A script with a hook that has markers. -/
def markedHook (markers : Node) : Node :=
  .mapping [⟨"issue", ⟨0, 0⟩, .scalar "T-1" false ⟨0, 7⟩⟩,
    ⟨"steps", ⟨1, 0⟩, .mapping
      [⟨"login", ⟨2, 2⟩, .mapping
        [⟨"after", ⟨3, 4⟩, .mapping
          [⟨"logout", ⟨4, 6⟩, .mapping [⟨"markers", ⟨5, 8⟩, markers⟩] ⟨5, 8⟩ false⟩]
          ⟨4, 6⟩ false⟩]
        ⟨3, 4⟩ false⟩]
      ⟨2, 2⟩ false⟩] ⟨0, 0⟩ false

/-- Two names in a scalar, and the same names in a list. -/
def spacedNames : Node :=
  .scalar (String.ofList ([] ++ ("ui".toList ++ (['\t', ' '] ++ ("slow".toList ++ []))))) true ⟨5, 17⟩

def listedNames : Node :=
  .list [.scalar "ui" false ⟨6, 10⟩, .null ⟨7, 10⟩, .scalar "slow" false ⟨8, 10⟩] ⟨6, 8⟩

theorem respelled_markedHook :
    RespelledRoot (markedHook spacedNames) (markedHook listedNames) := by
  have hspaced : SpellsNames ["ui", "slow"] spacedNames :=
    .scalar (List.all_eq_true.1 rfl)
      (.cons "ui" (by decide) (List.all_eq_true.1 rfl) (.last "slow" (List.all_eq_true.1 rfl))) _ _
  have hlisted : SpellsNames ["ui", "slow"] listedNames :=
    .list (.scalar _ _ _ (.null _ (.scalar _ _ _ .nil))) _
  have hmarkers : Respelled 4 .body ⟨Keyword.markers.text, ⟨5, 8⟩, spacedNames⟩
      ⟨Keyword.markers.text, ⟨5, 8⟩, listedNames⟩ :=
    .markers _ (by decide) hspaced hlisted
  exact .mk [_] [] _ _ (.inside _ _ _ [] [] rfl (.inside _ _ _ [] [] rfl
    (.inside _ _ _ [] [] rfl (.inside _ _ _ [] [] rfl hmarkers))))

theorem read_markedHook :
    ∃ ts, tokensOf 2 (markedHook spacedNames) = .ok ts ∧
      ofTokens ts = .ok (scriptOf (markedHook listedNames)) :=
  (read_iff_of_respelled respelled_markedHook 2 _).2 ⟨_, rfl, rfl⟩

end Script
end TestScript
