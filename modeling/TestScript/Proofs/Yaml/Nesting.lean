import TestScript.Proofs.Document.Refusals
import TestScript.Proofs.Yaml.Scanning
import TestScript.Proofs.Yaml.Streams
import TestScript.Yaml.Event.OfTokens

/-!
# The events of a text nest

The events that are read from a text are those of a stream of documents: collections begin and end,
and in a mapping keys and values take turns. A mapping that is marked in front of its first key is
introduced there, and if the first key of another one is missing, then what stands where the key is
indicates it (`exists_stream_of_ofText`). The productions say so one by one: each tells the events of
what it is named for.

A production that runs out of fuel would leave its events unfinished. It never does, because of
three productions in a row one reads a token. So `Gives` speaks of the state that is left beside the
events that are told.
-/

namespace TestScript.Yaml

open Document (Described DescribedDocument DescribedStream)
open Document.Described (itemEvents entryEvents Opened ItemsOpened EntriesOpened)

variable {origin : Cursor} {M : Position → Prop} {P P' : Described → Prop}

/-! ## Events that nest -/

/-- What holds of the marks of all mappings of a node: they are introduced, or else they take the
place of their first key, and if that is missing, of what indicates it. -/
abbrev IsOpened (origin : Cursor) (d : Described) : Prop :=
  d.Opened (Introduced origin) (Indicated origin)

/-- The events of a node that has a property. -/
def IsNode (origin : Cursor) (P : Described → Prop) (es : List Event) : Prop :=
  ∃ d : Described, es = d.events ∧ IsOpened origin d ∧ P d

/-- The events of the items of a sequence, up to its end. -/
def IsItems (origin : Cursor) (es : List Event) : Prop :=
  ∃ items stop, es = itemEvents items ++ [⟨stop, .sequenceEnd⟩] ∧
    ItemsOpened (Introduced origin) (Indicated origin) items

/-- The events of the keys and values of a mapping, up to its end. For each position of `M` there is
a first key that is not marked behind it, and the first key has a property. -/
def IsEntries (origin : Cursor) (M : Position → Prop) (P : Described → Prop) (es : List Event) :
    Prop :=
  ∃ entries stop, es = entryEvents entries ++ [⟨stop, .mappingEnd⟩] ∧
    EntriesOpened (Introduced origin) (Indicated origin) entries ∧
      (∀ m, M m → ∃ e ∈ entries.head?, e.1.position ≤ m) ∧ ∀ e ∈ entries.head?, P e.1

/-- The events of any node. -/
abbrev IsSomeNode (origin : Cursor) (es : List Event) : Prop :=
  IsNode origin (fun _ => True) es

theorem IsNode.mono {es : List Event} (h : IsNode origin P es) (hP : ∀ d, P d → P' d) :
    IsNode origin P' es := by
  obtain ⟨d, hd, hopens, hle⟩ := h
  exact ⟨d, hd, hopens, hP d hle⟩

theorem isNode_scalar {p : Position} {style : Style} {text : String}
    (hP : P (.scalar style text p)) : IsNode origin P [⟨p, .scalar style text⟩] :=
  ⟨.scalar style text p, by rw [Described.events], trivial, hP⟩

theorem isNode_alias {p : Position} (hP : P (.alias p)) : IsNode origin P [⟨p, .alias⟩] :=
  ⟨.alias p, by rw [Described.events], trivial, hP⟩

theorem IsItems.isNode {es : List Event} {p : Position} (h : IsItems origin es)
    (hP : ∀ items stop, P (.sequence p items stop)) :
    IsNode origin P (⟨p, .sequenceStart⟩ :: es) := by
  obtain ⟨items, stop, rfl, hitems⟩ := h
  exact ⟨.sequence p items stop, by rw [Described.events, List.cons_append], hitems, hP items stop⟩

theorem IsEntries.isNode {es : List Event} {p : Position} (h : IsEntries origin M P' es)
    (hstart : Introduced origin p ∨ M p)
    (hmissing : ∀ d, P' d → d.IsMissing → d.position ≤ p → Indicated origin d.position)
    (hP : ∀ entries stop, P (.mapping p entries stop)) :
    IsNode origin P (⟨p, .mappingStart⟩ :: es) := by
  obtain ⟨entries, stop, rfl, hentries, hfirst, hkey⟩ := h
  exact ⟨.mapping p entries stop, by rw [Described.events, List.cons_append],
    ⟨⟨hstart.imp_right (hfirst p), fun e he => hmissing e.1 (hkey e he)⟩, hentries⟩,
    hP entries stop⟩

theorem isItems_nil (p : Position) : IsItems origin [⟨p, .sequenceEnd⟩] :=
  ⟨[], p, rfl, trivial⟩

theorem IsItems.cons {es es' : List Event} (h : IsItems origin es') (hitem : IsNode origin P es) :
    IsItems origin (es ++ es') := by
  obtain ⟨item, rfl, hopens, -⟩ := hitem
  obtain ⟨items, stop, rfl, hitems⟩ := h
  exact ⟨item :: items, stop, by rw [itemEvents, List.append_assoc], hopens, hitems⟩

theorem isEntries_nil (hM : ∀ m, ¬ M m) (p : Position) : IsEntries origin M P [⟨p, .mappingEnd⟩] :=
  ⟨[], p, rfl, trivial, fun m hm => absurd hm (hM m), fun _ he => absurd he (Option.not_mem_none _)⟩

theorem IsEntries.cons {M' : Position → Prop} {P'' : Described → Prop} {es es' es'' : List Event}
    (h : IsEntries origin M' P'' es'') (hkey : IsNode origin P' es)
    (hvalue : IsSomeNode origin es') (hM : ∀ d, P' d → ∀ m, M m → d.position ≤ m)
    (hP : ∀ d, P' d → P d) : IsEntries origin M P (es ++ (es' ++ es'')) := by
  obtain ⟨key, rfl, hopens, hkey⟩ := hkey
  obtain ⟨value, rfl, hopens', -⟩ := hvalue
  obtain ⟨entries, stop, rfl, hentries, -⟩ := h
  refine ⟨(key, value) :: entries, stop, ?_, ⟨hopens, hopens', hentries⟩,
    fun m hm => ⟨_, rfl, hM key hkey m hm⟩, ?_⟩
  · rw [entryEvents, List.append_assoc, List.append_assoc]
  · rintro _ ⟨⟩
    exact hP key hkey

/-! ## What a computation gives -/

namespace Telling

/-- Behind the next token. -/
def skip (s : Telling) : Telling :=
  { s with stream := s.stream.drop }

/-- Behind an event. -/
def tell (s : Telling) (p : Position) (kind : Event.Kind) : Telling :=
  { s with events := s.events.push ⟨p, kind⟩ }

variable {s : Telling} {p : Position} {kind : Event.Kind}

@[simp] theorem stream_skip : s.skip.stream = s.stream.drop :=
  rfl

@[simp] theorem stream_tell : (s.tell p kind).stream = s.stream :=
  rfl

@[simp] theorem events_tell :
    (s.tell p kind).events.toList = s.events.toList ++ [⟨p, kind⟩] :=
  Array.toList_push

end Telling

namespace Tell

variable {α β : Type} {s : Telling} {x : Tell α} {f : α → Tell β}

/-- If a computation ends without a fault, then `Q` holds of its result, of the events that it has
told and of the state that it leaves, in which only tokens have been read. -/
def Gives (x : Tell α) (s : Telling) (Q : α → List Event → Telling → Prop) : Prop :=
  ∀ a s', x.run s = .ok (a, s') →
    ∃ es, s'.events.toList = s.events.toList ++ es ∧ s'.stream.IsBehind s.stream ∧ Q a es s'

variable {Q : β → List Event → Telling → Prop}

theorem Gives.mono {P Q : α → List Event → Telling → Prop} (hx : x.Gives s P)
    (h : ∀ a es s', s'.stream.IsBehind s.stream → P a es s' → Q a es s') : x.Gives s Q := by
  intro a s' hrun
  obtain ⟨es, hevents, hbehind, hP⟩ := hx a s' hrun
  exact ⟨es, hevents, hbehind, h a es s' hbehind hP⟩

theorem Gives.bind {P : α → List Event → Telling → Prop} (hx : x.Gives s P)
    (hf : ∀ a es s', P a es s' → s'.stream.IsBehind s.stream →
      (f a).Gives s' fun b es' s'' => Q b (es ++ es') s'') :
    (x >>= f).Gives s Q := by
  intro b s'' hrun
  rw [StateT.run_bind] at hrun
  cases hx' : x.run s with
  | error fault =>
    rw [hx'] at hrun
    cases hrun
  | ok r =>
    obtain ⟨a, s'⟩ := r
    rw [hx'] at hrun
    obtain ⟨es, hevents, hbehind, hP⟩ := hx a s' hx'
    obtain ⟨es', hevents', hbehind', hQ⟩ := hf a es s' hP hbehind b s'' hrun
    refine ⟨es ++ es', ?_, hbehind.trans hbehind', hQ⟩
    rw [hevents', hevents, List.append_assoc]

theorem gives_pure {b : β} (h : Q b [] s) : (pure b : Tell β).Gives s Q := by
  intro b' s' hrun
  cases hrun
  exact ⟨[], by rw [List.append_nil], s.stream.isBehind_refl, h⟩

theorem gives_fail {cause : Cause} {p : Position} : (fail cause p : Tell β).Gives s Q := by
  intro b s' hrun
  cases hrun

theorem gives_fail_bind {cause : Cause} {p : Position} : (fail cause p >>= f).Gives s Q := by
  intro b s' hrun
  cases hrun

theorem gives_peek_bind {f : Token → Tell β}
    (h : ∀ t, s.stream.peek = .ok t → (f t).Gives s Q) : (peek >>= f).Gives s Q := by
  intro b s' hrun
  rw [StateT.run_bind, run_peek] at hrun
  cases ht : s.stream.peek with
  | error fault =>
    rw [ht] at hrun
    cases hrun
  | ok t =>
    rw [ht] at hrun
    exact h t ht b s' hrun

theorem gives_get_bind {f : Telling → Tell β} (h : (f s).Gives s Q) : (get >>= f).Gives s Q :=
  h

theorem gives_skip_bind {f : Unit → Tell β} (h : (f ()).Gives s.skip Q) :
    (skip >>= f).Gives s Q := by
  intro b s' hrun
  obtain ⟨es, hevents, hbehind, hQ⟩ := h b s' hrun
  exact ⟨es, hevents, s.stream.isBehind_drop.trans hbehind, hQ⟩

theorem gives_tell {p : Position} {kind : Event.Kind} {Q : Unit → List Event → Telling → Prop}
    (h : Q () [⟨p, kind⟩] (s.tell p kind)) : (tell p kind).Gives s Q := by
  intro b s' hrun
  cases hrun
  exact ⟨[⟨p, kind⟩], Array.toList_push, s.stream.isBehind_refl, h⟩

theorem gives_tell_bind {p : Position} {kind : Event.Kind} {f : Unit → Tell β}
    (h : (f ()).Gives (s.tell p kind) fun b es s' => Q b (⟨p, kind⟩ :: es) s') :
    (tell p kind >>= f).Gives s Q := by
  intro b s' hrun
  obtain ⟨es, hevents, hbehind, hQ⟩ := h b s' hrun
  exact ⟨⟨p, kind⟩ :: es, by simpa using hevents, hbehind, hQ⟩

/-! ## Properties of a node -/

theorem gives_modify_bind {g : Telling → Telling} {f : Unit → Tell β}
    (hevents : (g s).events = s.events) (hbehind : (g s).stream.IsBehind s.stream)
    (h : (f ()).Gives (g s) Q) : (modify g >>= f).Gives s Q := by
  intro b s' hrun
  obtain ⟨es, hevents', hbehind', hQ⟩ := h b s' hrun
  exact ⟨es, by rw [hevents', hevents], hbehind.trans hbehind', hQ⟩

/-- A property tells nothing, and is a token of its own. A node is marked behind it where it is
marked in front of it. -/
structure ReadsProperty (origin : Cursor) (s : Telling) (any : Bool) (es : List Event)
    (s' : Telling) : Prop where
  events : es = []
  left : any = true → s'.stream.left < s.stream.left
  heads : ∀ d, s'.stream.Heads origin d → s.stream.Heads origin d

theorem readsProperty_none (s : Telling) : ReadsProperty origin s false [] s :=
  ⟨rfl, by simp, fun _ h => h⟩

theorem readsProperty_skip {t : Token} {kind : Token.Kind} {s' : Telling}
    (hpeek : s.stream.peek = .ok t) (hkind : t.kind = kind) (hproperty : kind.isProperty)
    (hstream : s'.stream = s.stream.drop) : ReadsProperty origin s true [] s' where
  events := rfl
  left _ := by
    have hpos := TokenStream.left_pos hpeek hkind (by rintro rfl; cases hproperty)
    rw [hstream, TokenStream.left_drop]
    omega
  heads _ h := (hstream ▸ h).of_property hpeek (hkind ▸ hproperty)

theorem gives_tag? (start : Position) (s : Telling) :
    (tag? start).Gives s (ReadsProperty origin s) := by
  rw [tag?]
  refine gives_peek_bind fun t ht => ?_
  split
  · next handle hkind =>
    refine gives_skip_bind (gives_get_bind ?_)
    dsimp only
    split
    · exact gives_pure (readsProperty_skip ht hkind rfl rfl)
    · exact gives_fail_bind
  · exact gives_pure (readsProperty_none s)

theorem gives_anchor? (s : Telling) : anchor?.Gives s (ReadsProperty origin s) := by
  rw [anchor?]
  refine gives_peek_bind fun t ht => ?_
  split
  · next name hkind =>
    refine gives_skip_bind ?_
    exact gives_modify_bind rfl s.stream.drop.isBehind_refl
      (gives_pure (readsProperty_skip ht hkind rfl rfl))
  · exact gives_pure (readsProperty_none s)

theorem gives_properties (s : Telling) : properties.Gives s (ReadsProperty origin s) := by
  rw [properties]
  refine gives_peek_bind fun t _ => ?_
  dsimp only
  refine Gives.bind (P := ReadsProperty origin s) (gives_anchor? s) ?_
  rintro anchored _ s₁ ⟨rfl, hanchored, hheads⟩ h₁
  have hleft := h₁.left_le
  split
  · next h =>
    refine Gives.bind (P := ReadsProperty origin s₁) (gives_tag? _ s₁) ?_
    rintro _ _ s₂ ⟨rfl, -, hheads'⟩ h₂
    refine gives_pure ⟨rfl, fun _ => ?_, fun d hd => hheads d (hheads' d hd)⟩
    exact Nat.lt_of_le_of_lt h₂.left_le (hanchored h)
  · refine Gives.bind (P := ReadsProperty origin s₁) (gives_tag? _ s₁) ?_
    rintro tagged _ s₂ ⟨rfl, htagged, hheads'⟩ h₂
    split
    · next h =>
      refine Gives.bind (P := ReadsProperty origin s₂) (gives_anchor? s₂) ?_
      rintro _ _ s₃ ⟨rfl, -, hheads''⟩ h₃
      refine gives_pure ⟨rfl, fun _ => ?_, fun d hd => hheads d (hheads' d (hheads'' d hd))⟩
      exact Nat.lt_of_le_of_lt h₃.left_le (Nat.lt_of_lt_of_le (htagged h) hleft)
    · exact gives_pure ⟨rfl, by simp, fun d hd => hheads d (hheads' d hd)⟩

/-! ## Nodes -/

theorem gives_missing {p : Position} {Q : Unit → List Event → Telling → Prop}
    (h : Q () [⟨p, .scalar .plain ""⟩] (s.tell p (.scalar .plain ""))) : (missing p).Gives s Q :=
  gives_tell h

theorem gives_missing_bind {p : Position} {f : Unit → Tell β}
    (h : (f ()).Gives (s.tell p (.scalar .plain "")) fun b es s' =>
      Q b (⟨p, .scalar .plain ""⟩ :: es) s') :
    (missing p >>= f).Gives s Q :=
  gives_tell_bind h

/-- Where a node is missing, there may be properties for it. -/
theorem gives_missing_or_fail {s₀ : Telling} {marked : Bool} {p : Position}
    (hmarked : marked = true → s.stream.left < s₀.stream.left) (hP : P (.scalar .plain "" p))
    {strict : Prop} :
    (if marked = true then missing p else fail .nodeExpected p).Gives s fun _ es s' =>
      IsNode origin P ([] ++ es) ∧ (strict → s'.stream.left < s₀.stream.left) := by
  split
  · next h => exact gives_missing ⟨isNode_scalar hP, fun _ => hmarked h⟩
  · exact gives_fail

/-- The value of a member: a node, and at a colon at least that is read. -/
def IsValue (origin : Cursor) (s : Telling) (_ : Unit) (es : List Event) (s' : Telling) : Prop :=
  IsSomeNode origin es ∧
    ∀ t, s.stream.peek = .ok t → t.kind = .value → s'.stream.left < s.stream.left

/-- Where there is no colon, the value is missing. -/
theorem gives_missing_value {t : Token} {p : Position} (ht : s.stream.peek = .ok t)
    (hkind : t.kind ≠ .value) : (missing p).Gives s (IsValue origin s) := by
  refine gives_missing ⟨isNode_scalar trivial, fun t' ht' hvalue => ?_⟩
  cases ht.symm.trans ht'
  exact absurd hvalue hkind

/-- A collection that begins with a token of its own. -/
theorem gives_collection {s₀ : Telling} {p : Position} {kind : Event.Kind} {rest : Tell Unit}
    {IsRest : List Event → Prop} (hpos : 0 < s.stream.left) (h₀ : s.stream.IsBehind s₀.stream)
    (hrest : (s.skip.tell p kind).stream.left + 1 = s.stream.left →
      rest.Gives (s.skip.tell p kind) fun _ es _ => IsRest es)
    (hnode : ∀ es, IsRest es → IsNode origin P (⟨p, kind⟩ :: es)) {strict : Prop} :
    (do skip; tell p kind; rest).Gives s fun _ es s' =>
      IsNode origin P ([] ++ es) ∧ (strict → s'.stream.left < s₀.stream.left) := by
  refine gives_skip_bind (gives_tell_bind ?_)
  have hleft : (s.skip.tell p kind).stream.left + 1 = s.stream.left := by simp; omega
  refine (hrest hleft).mono fun _ es s' hs' hes => ⟨hnode es hes, fun _ => ?_⟩
  have hle := hs'.left_le
  have hle₀ := h₀.left_le
  omega

/-- In front of what follows in a flow collection there may have to be a comma. -/
theorem gives_comma {first comma : Prop} [Decidable first] [Decidable comma] {cause : Cause}
    {p : Position} {rest : Tell β} {Q : β → List Event → Prop}
    (h : ∀ s', s'.stream.IsBehind s.stream → (first → s' = s) →
      rest.Gives s' fun b es _ => Q b es) :
    (if first then rest else if comma then do skip; rest else do fail cause p; rest).Gives s
      fun b es _ => Q b es := by
  split
  · exact h s s.stream.isBehind_refl fun _ => rfl
  · next hfirst =>
    split
    · exact gives_skip_bind (h _ s.stream.isBehind_drop fun hf => absurd hf hfirst)
    · exact gives_fail_bind

/-! ### What stands in place of a missing node -/

theorem isContent_of_endsBlockPart (k : Token.Kind) (h : endsBlockPart k = true) :
    k.isContent = false := by
  cases k <;> first | rfl | cases h

theorem isContent_of_endsBlockItem (k : Token.Kind) (h : endsBlockItem k = true) :
    k.isContent = false := by
  cases k <;> first | rfl | cases h

theorem isContent_of_endsFlowValue (k : Token.Kind)
    (h : (endsFlowValue k || k = .value) = true) : k.isContent = false := by
  cases k <;> first | rfl | cases h

theorem isContent_of_endsPairValue (k : Token.Kind) (h : endsPairValue k = true) :
    k.isContent = false := by
  cases k <;> first | rfl | cases h

theorem isContent_of_endsDocument (k : Token.Kind) (h : endsDocument k = true) :
    k.isContent = false := by
  cases k <;> first | rfl | cases h

mutual

-- By induction on the fuel. For each token left it lasts for three productions, which is as many as
-- may be entered before one reads a token: `nodeUnless`, then `node`, then `indentlessItems`.

/-- A node tells the events of a node. It may fail to read a token only where a sequence need not
be indented. -/
theorem gives_node (block indentless : Bool) : (fuel : Nat) → (s : Telling) →
    s.stream.KeysFollow origin → 3 * s.stream.left + 2 ≤ fuel →
      (node block indentless fuel).Gives s fun _ es s' => IsNode origin (s.stream.Heads origin) es ∧
        (indentless = false → s'.stream.left < s.stream.left)
  | 0, s, _, hfuel => absurd hfuel (by omega)
  | fuel + 1, s, hs, hfuel => by
    rw [node]
    refine gives_peek_bind fun t ht => ?_
    split
    · next name hkind =>
      have hpos := TokenStream.left_pos ht hkind (by simp)
      refine gives_skip_bind (gives_get_bind ?_)
      dsimp only
      split
      · have halias : s.stream.Heads origin (.alias t.position) :=
          TokenStream.heads_of_peek ht rfl (by rintro ⟨_, ⟨⟩⟩)
        refine gives_tell ⟨isNode_alias halias, fun _ => ?_⟩
        simp only [Telling.stream_tell, Telling.stream_skip, TokenStream.left_drop]
        omega
      · exact gives_fail_bind
    · refine Gives.bind (P := ReadsProperty origin s) (gives_properties s) ?_
      rintro marked _ s₁ ⟨rfl, hmarked, hheads⟩ h₁
      have hs₁ := hs.behind h₁
      have hleft := h₁.left_le
      refine gives_peek_bind fun ⟨p, kind⟩ ht => ?_
      -- What is told next is marked here, and behind its properties.
      have hhere : ∀ d : Described, d.position = p → (d.IsMissing → kind.isContent = false) →
          s.stream.Heads origin d := fun d hd hmissing =>
        hheads d (TokenStream.heads_of_peek ht hd hmissing)
      have hsequence : ∀ items stop, s.stream.Heads origin (.sequence p items stop) :=
        fun _ _ => hhere _ rfl (by rintro ⟨_, ⟨⟩⟩)
      have hmapping : ∀ entries stop, s.stream.Heads origin (.mapping p entries stop) :=
        fun _ _ => hhere _ rfl (by rintro ⟨_, ⟨⟩⟩)
      dsimp only
      split
      · next style text =>
        have hpos := TokenStream.left_pos ht rfl (by simp)
        have hscalar : s.stream.Heads origin (.scalar style text p) :=
          hhere _ rfl (by rintro ⟨_, ⟨⟩⟩; rfl)
        refine gives_skip_bind (gives_tell ⟨isNode_scalar hscalar, fun _ => ?_⟩)
        simp only [Telling.stream_tell, Telling.stream_skip, TokenStream.left_drop]
        omega
      · exact gives_collection (TokenStream.left_pos ht rfl (by simp)) h₁
          (fun h => gives_flowItems true fuel _ hs₁.drop (by omega))
          fun _ hes => hes.isNode hsequence
      · refine gives_collection (TokenStream.left_pos ht rfl (by simp)) h₁
          (fun h => gives_flowMembers true fuel _ hs₁.drop (by omega)) fun _ hes => ?_
        have hopens := hs₁.opensAt ht (.inl rfl)
        exact hes.isNode (hopens.introduced.imp_right fun h => ⟨rfl, h⟩)
          (fun d hd => (hd rfl).indicated_of_opensAt hopens) hmapping
      · split
        · -- The sequence has no token for its start, so nothing need be read at all.
          refine gives_tell_bind ?_
          exact (gives_indentlessItems fuel (s₁.tell p _) hs₁ (by simp; omega)).mono
            fun _ es' s' _ hes => ⟨hes.isNode hsequence, fun h => by simp_all⟩
        · exact gives_missing_or_fail hmarked (hhere _ rfl fun _ => rfl)
      · split
        · exact gives_collection (TokenStream.left_pos ht rfl (by simp)) h₁
            (fun h => gives_blockItems fuel _ hs₁.drop (by omega))
            fun _ hes => hes.isNode hsequence
        · exact gives_missing_or_fail hmarked (hhere _ rfl fun _ => rfl)
      · split
        · refine gives_collection (TokenStream.left_pos ht rfl (by simp)) h₁
            (fun h => gives_blockMembers fuel _ hs₁.drop (by omega)) fun _ hes => ?_
          have hopens := hs₁.opensAt ht (.inr rfl)
          exact hes.isNode hopens.introduced
            (fun d hd => hd.indicated_of_opensAt hopens) hmapping
        · exact gives_missing_or_fail hmarked (hhere _ rfl fun _ => rfl)
      · next hscalar hbracket hbrace _ _ _ =>
        refine gives_missing_or_fail hmarked (hhere _ rfl fun _ => ?_)
        cases kind with
        | scalar style text => exact absurd rfl (hscalar style text)
        | flowSequenceStart => exact absurd rfl hbracket
        | flowMappingStart => exact absurd rfl hbrace
        | _ => rfl

/-- A node that may be missing is a node. -/
theorem gives_nodeUnless {ends : Token.Kind → Bool}
    (hends : ∀ k, ends k = true → k.isContent = false) (block indentless : Bool) : (fuel : Nat) →
    (s : Telling) → s.stream.KeysFollow origin → 3 * s.stream.left + 3 ≤ fuel →
    (nodeUnless ends block indentless fuel).Gives s fun _ es _ =>
      IsNode origin (s.stream.Heads origin) es
  | 0, s, _, hfuel => absurd hfuel (by omega)
  | fuel + 1, s, hs, hfuel => by
    rw [nodeUnless]
    refine gives_peek_bind fun ⟨p, kind⟩ ht => ?_
    dsimp only
    split
    · next h =>
      have hmissing : s.stream.Heads origin (.scalar .plain "" p) :=
        TokenStream.heads_of_peek ht rfl fun _ => hends kind h
      exact gives_missing (isNode_scalar hmissing)
    · exact (gives_node block indentless fuel s hs (by omega)).mono fun _ _ _ _ h => h.1

theorem gives_blockMembers : (fuel : Nat) → (s : Telling) → s.stream.KeysFollow origin →
    3 * s.stream.left + 2 ≤ fuel → (blockMembers fuel).Gives s fun _ es _ =>
      IsEntries origin (fun m => BeginsMember origin m s.stream.tokens)
        (s.stream.HeadsMember origin) es
  | 0, s, _, hfuel => absurd hfuel (by omega)
  | fuel + 1, s, hs, hfuel => by
    rw [blockMembers]
    refine gives_peek_bind fun ⟨p, kind⟩ ht => ?_
    dsimp only
    split
    · refine gives_skip_bind (gives_tell (isEntries_nil (fun m hm => ?_) p))
      exact absurd (TokenStream.kind_of_beginsMember hm ht) (by simp)
    · have hpos := TokenStream.left_pos ht rfl (by simp)
      refine gives_skip_bind ?_
      refine (gives_nodeUnless isContent_of_endsBlockPart _ _ fuel _ hs.drop (by simp; omega)).bind
        fun _ key s₁ hkey h₁ => ?_
      have hleft₁ := h₁.left_le
      rw [Telling.stream_skip, TokenStream.left_drop] at hleft₁
      have hs₁ := hs.drop.behind h₁
      refine (gives_blockValue fuel s₁ hs₁ (by omega)).bind fun _ value s₂ hvalue h₂ => ?_
      have hleft₂ := h₂.left_le
      refine (gives_blockMembers fuel s₂ (hs₁.behind h₂) (by omega)).mono fun _ es _ _ hes => ?_
      exact hes.cons hkey hvalue.1 (fun d hd => (hd.headsMember ht rfl).within)
        fun d hd => hd.headsMember ht rfl
    · refine gives_missing_bind ?_
      refine (gives_blockValue fuel (s.tell p _) hs (by simp; omega)).bind
        fun _ value s₂ hvalue h₂ => ?_
      have hread := hvalue.2 _ ht rfl
      rw [Telling.stream_tell] at hread
      refine (gives_blockMembers fuel s₂ (hs.behind h₂) (by omega)).mono fun _ es _ _ hes => ?_
      have hmissing : s.stream.HeadsMember origin (.scalar .plain "" p) :=
        TokenStream.headsMember_of_peek ht rfl rfl
      exact hes.cons (isNode_scalar hmissing) hvalue.1 (fun d hd => hd.within) fun d hd => hd
    · exact gives_fail

theorem gives_blockValue : (fuel : Nat) → (s : Telling) → s.stream.KeysFollow origin →
    3 * s.stream.left + 1 ≤ fuel → (blockValue fuel).Gives s (IsValue origin s)
  | 0, s, _, hfuel => absurd hfuel (by omega)
  | fuel + 1, s, hs, hfuel => by
    rw [blockValue]
    refine gives_peek_bind fun ⟨p, kind⟩ ht => ?_
    dsimp only
    split
    · next hkind =>
      have hpos := TokenStream.left_pos ht hkind (by simp)
      refine gives_skip_bind ?_
      refine (gives_nodeUnless isContent_of_endsBlockPart _ _ fuel _ hs.drop (by simp; omega)).mono
        fun _ es s' hs' hes => ⟨hes.mono fun _ _ => trivial, fun _ _ _ => ?_⟩
      have hleft := hs'.left_le
      rw [Telling.stream_skip, TokenStream.left_drop] at hleft
      omega
    · next hkind => exact gives_missing_value ht hkind

theorem gives_blockItems : (fuel : Nat) → (s : Telling) → s.stream.KeysFollow origin →
    3 * s.stream.left + 1 ≤ fuel → (blockItems fuel).Gives s fun _ es _ => IsItems origin es
  | 0, s, _, hfuel => absurd hfuel (by omega)
  | fuel + 1, s, hs, hfuel => by
    rw [blockItems]
    refine gives_peek_bind fun ⟨p, kind⟩ ht => ?_
    dsimp only
    split
    · exact gives_skip_bind (gives_tell (isItems_nil p))
    · have hpos := TokenStream.left_pos ht rfl (by simp)
      refine gives_skip_bind ?_
      refine (gives_nodeUnless isContent_of_endsBlockItem _ _ fuel _ hs.drop (by simp; omega)).bind
        fun _ item s₁ hitem h₁ => ?_
      have hleft := h₁.left_le
      rw [Telling.stream_skip, TokenStream.left_drop] at hleft
      exact (gives_blockItems fuel s₁ (hs.drop.behind h₁) (by omega)).mono
        fun _ es _ _ hes => hes.cons hitem
    · exact gives_fail

theorem gives_indentlessItems : (fuel : Nat) → (s : Telling) → s.stream.KeysFollow origin →
    3 * s.stream.left + 1 ≤ fuel → (indentlessItems fuel).Gives s fun _ es _ => IsItems origin es
  | 0, s, _, hfuel => absurd hfuel (by omega)
  | fuel + 1, s, hs, hfuel => by
    rw [indentlessItems]
    refine gives_peek_bind fun ⟨p, kind⟩ ht => ?_
    dsimp only
    split
    · next hkind =>
      have hpos := TokenStream.left_pos ht hkind (by simp)
      refine gives_skip_bind ?_
      refine (gives_nodeUnless (fun k hk => (Bool.or_eq_true _ _ ▸ hk).elim
        (isContent_of_endsBlockItem k) (isContent_of_endsBlockPart k)) _ _ fuel _ hs.drop
        (by simp; omega)).bind fun _ item s₁ hitem h₁ => ?_
      have hleft := h₁.left_le
      rw [Telling.stream_skip, TokenStream.left_drop] at hleft
      exact (gives_indentlessItems fuel s₁ (hs.drop.behind h₁) (by omega)).mono
        fun _ es _ _ hes => hes.cons hitem
    · exact gives_tell (isItems_nil p)

theorem gives_flowItems (first : Bool) : (fuel : Nat) → (s : Telling) → s.stream.KeysFollow origin →
    3 * s.stream.left + 3 ≤ fuel → (flowItems first fuel).Gives s fun _ es _ => IsItems origin es
  | 0, s, _, hfuel => absurd hfuel (by omega)
  | fuel + 1, s, hs, hfuel => by
    rw [flowItems]
    refine gives_peek_bind fun ⟨p, kind⟩ ht => ?_
    dsimp only
    split
    · exact gives_skip_bind (gives_tell (isItems_nil p))
    · refine gives_comma fun s' h' _ => ?_
      have hs' := hs.behind h'
      have hleft' := h'.left_le
      refine gives_peek_bind fun ⟨p', kind'⟩ ht' => ?_
      dsimp only
      split
      · exact gives_skip_bind (gives_tell (isItems_nil p'))
      · have hpos := TokenStream.left_pos ht' rfl (by simp)
        refine gives_skip_bind (gives_tell_bind ?_)
        refine (gives_pairKey fuel (s'.skip.tell p' _) hs'.drop (by simp; omega)).bind
          fun _ key s₁ hkey h₁ => ?_
        have hleft₁ := h₁.left_le
        simp only [Telling.stream_tell, Telling.stream_skip, TokenStream.left_drop] at hleft₁
        have hs₁ := hs'.drop.behind h₁
        refine (gives_pairValue fuel s₁ hs₁ (by omega)).bind fun _ value s₂ hvalue h₂ => ?_
        have hleft₂ := h₂.left_le
        refine gives_peek_bind fun t _ => gives_tell_bind ?_
        refine (gives_flowItems false fuel (s₂.tell t.position _) (hs₁.behind h₂)
          (by simp; omega)).mono fun _ es _ _ hes => ?_
        have hentries : IsEntries origin
            (fun m => ∃ t ∈ s'.stream.drop.tokens.head?, t.kind.beginsNode ∧ t.position ≤ m)
            (s'.stream.drop.Heads origin) (key ++ (value ++ [⟨t.position, .mappingEnd⟩])) :=
          (isEntries_nil (M := fun _ => False) (P := fun _ => True) (fun _ => id) t.position).cons
            hkey hvalue (fun d hd m hm => hd.within m (.inr hm)) fun d hd => hd
        have hopening : Token.IsOpening origin ⟨p', .key⟩ s'.stream.drop.tokens :=
          hs'.isOpening ht' (TokenStream.tokens_ne_nil ht' rfl (by simp))
        have hpair := hentries.isNode (hopening.imp (·.1) (·.2))
          (fun d hd => hd.indicated_of_key hs' ht') (P := fun _ => True) fun _ _ => trivial
        simpa using hes.cons hpair
      · refine (gives_node _ _ fuel s' hs' (by omega)).bind fun _ item s₁ hitem h₁ => ?_
        have hread := hitem.2 rfl
        exact (gives_flowItems false fuel s₁ (hs'.behind h₁) (by omega)).mono
          fun _ es _ _ hes => hes.cons hitem.1

/-- The members of a flow mapping, of which the first may stand right behind its start. -/
theorem gives_flowMembers (first : Bool) : (fuel : Nat) → (s : Telling) →
    s.stream.KeysFollow origin → 3 * s.stream.left + 3 ≤ fuel →
    (flowMembers first fuel).Gives s fun _ es _ =>
      IsEntries origin (fun m => first = true ∧ BeginsMember origin m s.stream.tokens)
        (fun d => first = true → s.stream.HeadsMember origin d) es
  | 0, s, _, hfuel => absurd hfuel (by omega)
  | fuel + 1, s, hs, hfuel => by
    rw [flowMembers]
    refine gives_peek_bind fun ⟨p, kind⟩ ht => ?_
    dsimp only
    split
    · next hkind =>
      refine gives_skip_bind (gives_tell (isEntries_nil (fun m hm => ?_) p))
      exact absurd (TokenStream.kind_of_beginsMember hm.2 ht) (by simp [hkind])
    · refine gives_comma fun s' h' hsame => ?_
      have hs' := hs.behind h'
      have hleft' := h'.left_le
      have hmember : ∀ m, first = true ∧ BeginsMember origin m s.stream.tokens →
          BeginsMember origin m s'.stream.tokens := fun m hm => hsame hm.1 ▸ hm.2
      have hheads : ∀ d, s'.stream.HeadsMember origin d → first = true →
          s.stream.HeadsMember origin d := fun d hd hfirst => hsame hfirst ▸ hd
      refine gives_peek_bind fun ⟨p', kind'⟩ ht' => ?_
      dsimp only
      split
      · refine gives_skip_bind (gives_tell (isEntries_nil (fun m hm => ?_) p))
        exact absurd (TokenStream.kind_of_beginsMember (hmember m hm) ht') (by simp)
      · have hpos := TokenStream.left_pos ht' rfl (by simp)
        refine gives_skip_bind ?_
        refine (gives_nodeUnless isContent_of_endsFlowValue _ _ fuel _ hs'.drop
          (by simp; omega)).bind fun _ key s₁ hkey h₁ => ?_
        have hleft₁ := h₁.left_le
        rw [Telling.stream_skip, TokenStream.left_drop] at hleft₁
        have hs₁ := hs'.drop.behind h₁
        refine (gives_flowValue fuel s₁ hs₁ (by omega)).bind fun _ value s₂ hvalue h₂ => ?_
        have hleft₂ := h₂.left_le
        exact (gives_flowMembers false fuel s₂ (hs₁.behind h₂) (by omega)).mono
          fun _ es _ _ hes => hes.cons hkey hvalue.1
            (fun d hd m hm => (hd.headsMember ht' rfl).within m (hmember m hm))
            fun d hd => hheads d (hd.headsMember ht' rfl)
      · refine gives_missing_bind ?_
        refine (gives_flowValue fuel (s'.tell p' _) hs' (by simp; omega)).bind
          fun _ value s₂ hvalue h₂ => ?_
        have hread := hvalue.2 _ ht' rfl
        rw [Telling.stream_tell] at hread
        have hmissing : s'.stream.HeadsMember origin (.scalar .plain "" p') :=
          TokenStream.headsMember_of_peek ht' rfl rfl
        exact (gives_flowMembers false fuel s₂ (hs'.behind h₂) (by omega)).mono
          fun _ es _ _ hes => hes.cons (isNode_scalar hmissing) hvalue.1
            (fun d hd m hm => hd.within m (hmember m hm)) hheads
      · next hflowEnd hkey hvalue =>
        refine (gives_node _ _ fuel s' hs' (by omega)).bind fun _ key s₁ hnode h₁ => ?_
        have hread := hnode.2 rfl
        refine gives_peek_bind fun t _ => gives_missing_bind ?_
        -- A member begins with its key or with its colon, and here neither of them stands.
        have hnone : ∀ m, ¬ BeginsMember origin m s'.stream.tokens := fun m hm =>
          (TokenStream.kind_of_beginsMember hm ht').elim hkey hvalue
        exact (gives_flowMembers false fuel (s₁.tell t.position _) (hs'.behind h₁)
          (by simp; omega)).mono fun _ es _ _ hes => hes.cons hnode.1 (isNode_scalar trivial)
            (fun d hd m hm => absurd (hmember m hm) (hnone m))
            fun d hd => hheads d ⟨fun m hm => absurd hm (hnone m), hd.after,
              fun m hm => absurd hm (hnone m)⟩

theorem gives_flowValue : (fuel : Nat) → (s : Telling) → s.stream.KeysFollow origin →
    3 * s.stream.left + 1 ≤ fuel → (flowValue fuel).Gives s (IsValue origin s)
  | 0, s, _, hfuel => absurd hfuel (by omega)
  | fuel + 1, s, hs, hfuel => by
    rw [flowValue]
    refine gives_peek_bind fun ⟨p, kind⟩ ht => ?_
    dsimp only
    split
    · next hkind =>
      have hpos := TokenStream.left_pos ht hkind (by simp)
      have hread : ∀ {s' : Telling}, s'.stream.IsBehind s.skip.stream →
          s'.stream.left < s.stream.left := by
        intro s' h'
        have hleft := h'.left_le
        rw [Telling.stream_skip, TokenStream.left_drop] at hleft
        omega
      refine gives_skip_bind (gives_peek_bind fun t' _ => ?_)
      split
      · exact gives_missing
          ⟨isNode_scalar trivial, fun _ _ _ => hread s.stream.drop.isBehind_refl⟩
      · exact (gives_node _ _ fuel _ hs.drop (by simp; omega)).mono
          fun _ es s' h' hes => ⟨hes.1.mono fun _ _ => trivial, fun _ _ _ => hread h'⟩
    · next hkind => exact gives_missing_value ht hkind

theorem gives_pairKey : (fuel : Nat) → (s : Telling) → s.stream.KeysFollow origin →
    3 * s.stream.left + 3 ≤ fuel → (pairKey fuel).Gives s fun _ es _ =>
      IsNode origin (s.stream.Heads origin) es
  | 0, s, _, hfuel => absurd hfuel (by omega)
  | fuel + 1, s, hs, hfuel => by
    rw [pairKey]
    refine gives_peek_bind fun ⟨p, kind⟩ ht => ?_
    dsimp only
    split
    · next hkind =>
      have hmissing : s.stream.Heads origin (.scalar .plain "" p) :=
        TokenStream.heads_of_peek ht rfl fun _ => by
          cases kind <;> first | rfl | (simp [endsPairValue] at hkind)
      exact gives_skip_bind (gives_missing (isNode_scalar hmissing))
    · exact (gives_node _ _ fuel s hs (by omega)).mono fun _ _ _ _ h => h.1

theorem gives_pairValue : (fuel : Nat) → (s : Telling) → s.stream.KeysFollow origin →
    3 * s.stream.left + 1 ≤ fuel → (pairValue fuel).Gives s fun _ es _ => IsSomeNode origin es
  | 0, s, _, hfuel => absurd hfuel (by omega)
  | fuel + 1, s, hs, hfuel => by
    rw [pairValue]
    refine gives_peek_bind fun ⟨p, kind⟩ ht => ?_
    dsimp only
    split
    · next hkind =>
      have hpos := TokenStream.left_pos ht hkind (by simp)
      refine gives_skip_bind ?_
      exact (gives_nodeUnless isContent_of_endsPairValue _ _ fuel _ hs.drop (by simp; omega)).mono
        fun _ _ _ _ h => h.mono fun _ _ => trivial
    · exact gives_missing (isNode_scalar trivial)

end

/-! ## Documents -/

theorem gives_declare_bind {handle : Option String} {f : Unit → Tell β}
    (h : (f ()).Gives { s with handle } Q) : (declare handle >>= f).Gives s Q :=
  gives_modify_bind rfl s.stream.isBehind_refl h

theorem gives_directives : (fuel : Nat) → (versioned : Bool) → (s : Telling) →
    (directives fuel versioned).Gives s fun _ es _ => es = []
  | 0, versioned, s => gives_pure rfl
  | fuel + 1, versioned, s => by
    rw [directives]
    refine gives_peek_bind fun ⟨p, kind⟩ ht => ?_
    dsimp only
    split
    · split
      · exact gives_fail_bind
      · exact gives_skip_bind (gives_declare_bind (gives_directives fuel _ _))
    · exact gives_skip_bind (gives_declare_bind (gives_directives fuel _ _))
    · exact gives_skip_bind (gives_declare_bind (gives_directives fuel _ _))
    · exact gives_pure rfl

theorem gives_documentEnds : (fuel : Nat) → (s : Telling) →
    (documentEnds fuel).Gives s fun _ es _ => es = []
  | 0, s => gives_pure rfl
  | fuel + 1, s => by
    rw [documentEnds]
    refine gives_peek_bind fun t ht => ?_
    split
    · exact gives_skip_bind (gives_documentEnds fuel _)
    · exact gives_pure rfl

/-- The start of a document and its content, of which at least one token is read. -/
theorem gives_documentContent (implicit : Bool) {fuel : Nat} (hs : s.stream.KeysFollow origin)
    (hfuel : 3 * s.stream.left + 3 ≤ fuel) :
    (documentContent implicit fuel).Gives s fun _ es s' =>
      (∃ p, ∃ d : Described, es = ⟨p, .documentStart⟩ :: d.events ∧
        IsOpened origin d) ∧ s'.stream.left < s.stream.left := by
  rw [documentContent]
  refine gives_peek_bind fun ⟨p, kind⟩ _ => ?_
  dsimp only
  split
  · refine gives_tell_bind ((gives_node _ _ fuel (s.tell p _) hs (by simp; omega)).mono
      fun _ es s' _ hes => ?_)
    obtain ⟨⟨d, rfl, hopened, -⟩, hread⟩ := hes
    exact ⟨⟨p, d, rfl, hopened⟩, hread rfl⟩
  · refine (gives_directives fuel false s).bind fun _ es s₁ hes h₁ => ?_
    obtain rfl := hes
    have hleft := h₁.left_le
    refine gives_peek_bind fun t ht => ?_
    split
    · next hkind =>
      have hpos := TokenStream.left_pos ht hkind (by simp)
      refine gives_skip_bind (gives_tell_bind ?_)
      refine (gives_nodeUnless isContent_of_endsDocument _ _ fuel (s₁.skip.tell t.position _)
        (hs.behind h₁).drop (by simp; omega)).mono fun _ es s' h' hes => ?_
      obtain ⟨d, rfl, hopened, -⟩ := hes
      have hleft' := h'.left_le
      simp only [Telling.stream_tell, Telling.stream_skip, TokenStream.left_drop] at hleft'
      exact ⟨⟨t.position, d, rfl, hopened⟩, by omega⟩
    · exact gives_fail_bind

theorem gives_documentEnd (s : Telling) :
    documentEnd.Gives s fun _ es _ => ∃ p, es = [⟨p, .documentEnd⟩] := by
  rw [documentEnd]
  refine gives_peek_bind fun ⟨p, kind⟩ ht => ?_
  dsimp only
  split
  · refine gives_skip_bind ?_
    exact gives_declare_bind (gives_tell_bind (gives_pure ⟨p, rfl⟩))
  · split
    · exact gives_fail_bind
    · exact gives_declare_bind (gives_tell_bind (gives_pure ⟨p, rfl⟩))

theorem gives_documents (implicit : Bool) : (fuel : Nat) → (s : Telling) →
    s.stream.KeysFollow origin → 3 * s.stream.left + 4 ≤ fuel →
    (documents implicit fuel).Gives s fun _ es _ =>
      ∃ (ds : List DescribedDocument) (stop : Position),
        es = ds.flatMap DescribedDocument.events ++ [⟨stop, .streamEnd⟩] ∧
          ∀ d ∈ ds, IsOpened origin d.root
  | 0, s, _, hfuel => absurd hfuel (by omega)
  | fuel + 1, s, hs, hfuel => by
    rw [documents]
    refine (gives_documentEnds fuel s).bind fun _ es s₁ hes h₁ => ?_
    obtain rfl := hes
    have hleft₁ := h₁.left_le
    refine gives_peek_bind fun ⟨p, kind⟩ _ => ?_
    dsimp only
    split
    · exact gives_tell ⟨[], p, rfl, List.forall_mem_nil _⟩
    · refine gives_modify_bind rfl s₁.stream.isBehind_refl ?_
      have hs₁ : ({ s₁ with anchors := [] } : Telling).stream.KeysFollow origin := hs.behind h₁
      have hfuel' : 3 * ({ s₁ with anchors := [] } : Telling).stream.left + 3 ≤ fuel := by
        show 3 * s₁.stream.left + 3 ≤ fuel
        omega
      refine (gives_documentContent implicit hs₁ hfuel').bind fun _ es s₂ hes h₂ => ?_
      obtain ⟨⟨start, root, rfl, hopened⟩, hread⟩ := hes
      have hread : s₂.stream.left < s₁.stream.left := hread
      refine (gives_documentEnd s₂).bind fun marked es s₃ hes h₃ => ?_
      obtain ⟨stop, rfl⟩ := hes
      have hleft₃ := h₃.left_le
      refine (gives_documents marked fuel s₃ ((hs₁.behind h₂).behind h₃) (by omega)).mono
        fun _ es _ _ hes => ?_
      obtain ⟨ds, last, rfl, hds⟩ := hes
      refine ⟨⟨start, root, stop⟩ :: ds, last, by simp [DescribedDocument.events], ?_⟩
      exact List.forall_mem_cons.2 ⟨hopened, hds⟩

end Tell

/-- The events that a run from the start of a stream has told at its end. -/
theorem Tell.Gives.of_run {x : Tell Unit} {stream : TokenStream} {P : List Event → Prop}
    {es : List Event} (hx : x.Gives { stream } fun _ es _ => P es)
    (h : (do let (_, s) ← x.run { stream }; return s.events.toList) = .ok es) : P es := by
  cases hrun : x.run { stream } with
  | error fault =>
    rw [hrun] at h
    cases h
  | ok r =>
    rw [hrun] at h
    cases h
    obtain ⟨es, hevents, -, hes⟩ := hx r.1 r.2 hrun
    have htold : r.2.events.toList = es := by simpa using hevents
    rw [htold]
    exact hes

/-- **The events of a text nest**, and all that it begins inline is introduced. -/
theorem exists_stream_of_ofText {text : String} {es : List Event} (h : Event.ofText text = .ok es) :
    ∃ s : DescribedStream, s.events = es ∧
      ∀ d ∈ s.documents, IsOpened (Cursor.ofText text) d.root := by
  refine Tell.Gives.of_run (P := fun es => ∃ s : DescribedStream, s.events = es ∧
    ∀ d ∈ s.documents, IsOpened (Cursor.ofText text) d.root) ?_ h
  have hstream := TokenStream.isMarked_ofText text
  have hkeys : (TokenStream.ofText text).KeysFollow (Cursor.ofText text) :=
    ⟨hstream.keys, hstream.last⟩
  refine Tell.gives_tell_bind
    ((Tell.gives_documents true _ (Telling.tell _ _ _) hkeys ?_).mono fun _ es _ _ hes => ?_)
  · show 3 * (TokenStream.ofText text).tokens.length + 4 ≤ _
    omega
  · obtain ⟨ds, stop, rfl, hds⟩ := hes
    exact ⟨⟨{}, ds, stop⟩, rfl, hds⟩

end TestScript.Yaml
