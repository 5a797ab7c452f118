import TestScript.Proofs.Yaml.Scanning
import TestScript.Yaml.Event.OfTokens

/-!
# The marks of events are places in the text

An event is marked at a token: a node at its first one, and a missing node at the one that stands in
its place. So what holds of the marks of the tokens of a text holds of those of its events
(`Event.isMarked_of_ofText`). Each production keeps to this, however much of the fuel it uses.
-/

namespace TestScript.Yaml

variable {origin : Cursor}

/-- What stands at the mark of an event. A sequence that is not indented under its key is marked
behind its first dash. Of the mark of a missing node nothing is said here, and nothing of those of
mappings, which are told in front of their first key. -/
def Event.IsMarked (origin : Cursor) (e : Event) : Prop :=
  match e.kind with
  | .scalar style text =>
    style = .plain ∧ text = "" ∨ Begins origin e.position style text
  | .sequenceStart => StandsAt origin e.position '[' ∨ StandsAt origin e.position '-' ∨
      IsBehindDash origin e.position
  | _ => True

/-- What is left to be read is marked, and so is what has been told. -/
structure Telling.IsMarked (origin : Cursor) (s : Telling) : Prop where
  tokens : ∀ t ∈ s.stream.tokens, t.IsMarked origin
  events : ∀ e ∈ s.events, e.IsMarked origin

theorem isMarked_missing {p : Position} : Event.IsMarked origin ⟨p, .scalar .plain ""⟩ :=
  .inl ⟨rfl, rfl⟩

theorem Telling.IsMarked.peek {s : Telling} (hs : s.IsMarked origin) {t : Token}
    (ht : s.stream.peek = .ok t) : t.IsMarked origin := by
  rw [TokenStream.peek] at ht
  split at ht
  · next t' ts htokens =>
    cases ht
    exact hs.tokens t (htokens ▸ List.mem_cons_self)
  · cases hending : s.stream.ending with
    | error fault =>
      rw [hending] at ht
      cases ht
    | ok p =>
      rw [hending] at ht
      cases ht
      trivial

namespace Tell

variable {α β : Type} {x : Tell α} {f : α → Tell β}

/-! ## What keeps the marks -/

/-- If all is marked in front of a computation, then all is marked behind it. -/
def Keeps (origin : Cursor) (x : Tell α) : Prop :=
  ∀ s a s', x.run s = .ok (a, s') → s.IsMarked origin → s'.IsMarked origin

theorem keeps_pure {a : α} : (pure a : Tell α).Keeps origin := by
  intro s _ s' hrun hs
  cases hrun
  exact hs

theorem keeps_fail {cause : Cause} {p : Position} : (fail cause p : Tell α).Keeps origin := by
  intro s _ s' hrun
  cases hrun

theorem Keeps.bind (hx : x.Keeps origin) (hf : ∀ a, (f a).Keeps origin) :
    (x >>= f).Keeps origin := by
  intro s b s'' hrun hs
  rw [StateT.run_bind] at hrun
  cases hx' : x.run s with
  | error fault =>
    rw [hx'] at hrun
    cases hrun
  | ok r =>
    rw [hx'] at hrun
    exact hf r.1 r.2 b s'' hrun (hx s r.1 r.2 hx' hs)

theorem keeps_ite {b : Prop} [Decidable b] {y z : Tell β} (hy : y.Keeps origin)
    (hz : z.Keeps origin) : (if b then y else z).Keeps origin := by
  split
  · exact hy
  · exact hz

theorem keeps_peek_bind {f : Token → Tell β} (hf : ∀ t, t.IsMarked origin → (f t).Keeps origin) :
    (peek >>= f).Keeps origin := by
  intro s b s' hrun hs
  rw [StateT.run_bind, run_peek] at hrun
  cases ht : s.stream.peek with
  | error fault =>
    rw [ht] at hrun
    cases hrun
  | ok t =>
    rw [ht] at hrun
    exact hf t (hs.peek ht) s b s' hrun hs

theorem keeps_get_bind {f : Telling → Tell β} (hf : ∀ s, (f s).Keeps origin) :
    (get >>= f).Keeps origin :=
  fun s b s' hrun hs => hf s s b s' hrun hs

theorem keeps_modify {g : Telling → Telling} (h : ∀ s, s.IsMarked origin → (g s).IsMarked origin) :
    (modify g : Tell Unit).Keeps origin := by
  intro s _ s' hrun hs
  cases hrun
  exact h s hs

theorem keeps_skip : skip.Keeps origin :=
  keeps_modify fun _ hs => { hs with tokens := fun t ht => hs.tokens t (List.mem_of_mem_tail ht) }

theorem keeps_tell {p : Position} {kind : Event.Kind} (h : Event.IsMarked origin ⟨p, kind⟩) :
    (tell p kind).Keeps origin := by
  refine keeps_modify fun s hs => { hs with events := fun e he => ?_ }
  rcases Array.mem_push.1 he with he | rfl
  · exact hs.events e he
  · exact h

theorem keeps_missing {p : Position} : (missing p).Keeps origin :=
  keeps_tell isMarked_missing

theorem keeps_declare {handle : Option String} : (declare handle).Keeps origin :=
  keeps_modify fun _ hs => { hs with }

/-! ## Nodes -/

theorem keeps_tag? (start : Position) : (tag? start).Keeps origin := by
  rw [tag?]
  refine keeps_peek_bind fun t _ => ?_
  split
  · refine keeps_skip.bind fun _ => keeps_get_bind fun s => ?_
    exact keeps_ite keeps_pure (keeps_fail.bind fun _ => keeps_pure)
  · exact keeps_pure

theorem keeps_anchor? : anchor?.Keeps origin := by
  rw [anchor?]
  refine keeps_peek_bind fun t _ => ?_
  split
  · refine keeps_skip.bind fun _ => Keeps.bind (keeps_modify fun _ hs => { hs with }) fun _ => ?_
    exact keeps_pure
  · exact keeps_pure

theorem keeps_properties : properties.Keeps origin := by
  rw [properties]
  refine keeps_peek_bind fun t _ => keeps_anchor?.bind fun anchored => ?_
  refine keeps_ite ((keeps_tag? _).bind fun _ => keeps_pure) ((keeps_tag? _).bind fun tagged => ?_)
  exact keeps_ite (keeps_anchor?.bind fun _ => keeps_pure) keeps_pure

/-- Where a node is missing, there may be properties for it. -/
theorem keeps_missing_or_fail {b : Prop} [Decidable b] {p : Position} :
    (if b then missing p else fail .nodeExpected p).Keeps origin :=
  keeps_ite keeps_missing keeps_fail

/-- A collection that begins with a token of its own. -/
theorem keeps_collection {p : Position} {kind : Event.Kind} {rest : Tell Unit}
    (h : Event.IsMarked origin ⟨p, kind⟩) (hrest : rest.Keeps origin) :
    (do skip; tell p kind; rest).Keeps origin :=
  keeps_skip.bind fun _ => (keeps_tell h).bind fun _ => hrest

/-- In front of what follows in a flow collection there may have to be a comma. -/
theorem keeps_comma {first comma : Prop} [Decidable first] [Decidable comma] {cause : Cause}
    {p : Position} {rest : Tell β} (h : rest.Keeps origin) :
    (if first then rest else if comma then do skip; rest else do fail cause p; rest).Keeps
      origin :=
  keeps_ite h (keeps_ite (keeps_skip.bind fun _ => h) (keeps_fail.bind fun _ => h))

mutual

-- By induction on the fuel. All that a production tells is marked at a token that it has met.

theorem keeps_node (block indentless : Bool) :
    (fuel : Nat) → (node block indentless fuel).Keeps origin
  | 0 => keeps_pure
  | fuel + 1 => by
    rw [node]
    refine keeps_peek_bind fun t ht => ?_
    split
    · refine keeps_skip.bind fun _ => keeps_get_bind fun s => ?_
      exact keeps_ite (keeps_tell trivial) (keeps_fail.bind fun _ => keeps_tell trivial)
    · refine keeps_properties.bind fun marked => keeps_peek_bind fun ⟨p, kind⟩ ht => ?_
      dsimp only
      split
      · next style text =>
        have hbegins : Begins origin p style text := ht
        have hscalar : Event.IsMarked origin ⟨p, .scalar style text⟩ := .inr hbegins
        exact keeps_skip.bind fun _ => keeps_tell hscalar
      · have hbracket : StandsAt origin p '[' := ht
        have hsequence : Event.IsMarked origin ⟨p, .sequenceStart⟩ := .inl hbracket
        exact keeps_collection hsequence (keeps_flowItems true fuel)
      · exact keeps_collection trivial (keeps_flowMembers true fuel)
      · refine keeps_ite ?_ keeps_missing_or_fail
        have hdash : IsBehindDash origin p := ht
        have hsequence : Event.IsMarked origin ⟨p, .sequenceStart⟩ := .inr (.inr hdash)
        exact (keeps_tell hsequence).bind fun _ => keeps_indentlessItems fuel
      · refine keeps_ite ?_ keeps_missing_or_fail
        have hdash : StandsAt origin p '-' := ht
        have hsequence : Event.IsMarked origin ⟨p, .sequenceStart⟩ := .inr (.inl hdash)
        exact keeps_collection hsequence (keeps_blockItems fuel)
      · refine keeps_ite ?_ keeps_missing_or_fail
        exact keeps_collection trivial (keeps_blockMembers fuel)
      · exact keeps_missing_or_fail

theorem keeps_nodeUnless (ends : Token.Kind → Bool) (block indentless : Bool) :
    (fuel : Nat) → (nodeUnless ends block indentless fuel).Keeps origin
  | 0 => keeps_pure
  | fuel + 1 => by
    rw [nodeUnless]
    refine keeps_peek_bind fun t ht => ?_
    exact keeps_ite keeps_missing (keeps_node block indentless fuel)

theorem keeps_blockMembers : (fuel : Nat) → (blockMembers fuel).Keeps origin
  | 0 => keeps_pure
  | fuel + 1 => by
    rw [blockMembers]
    refine keeps_peek_bind fun t ht => ?_
    dsimp only
    split
    · exact keeps_skip.bind fun _ => keeps_tell trivial
    · refine keeps_skip.bind fun _ => (keeps_nodeUnless _ _ _ fuel).bind fun _ => ?_
      exact (keeps_blockValue fuel).bind fun _ => keeps_blockMembers fuel
    · refine keeps_missing.bind fun _ => ?_
      exact (keeps_blockValue fuel).bind fun _ => keeps_blockMembers fuel
    · exact keeps_fail

theorem keeps_blockValue : (fuel : Nat) → (blockValue fuel).Keeps origin
  | 0 => keeps_pure
  | fuel + 1 => by
    rw [blockValue]
    refine keeps_peek_bind fun t ht => ?_
    exact keeps_ite (keeps_skip.bind fun _ => keeps_nodeUnless _ _ _ fuel) keeps_missing

theorem keeps_blockItems : (fuel : Nat) → (blockItems fuel).Keeps origin
  | 0 => keeps_pure
  | fuel + 1 => by
    rw [blockItems]
    refine keeps_peek_bind fun t ht => ?_
    dsimp only
    split
    · exact keeps_skip.bind fun _ => keeps_tell trivial
    · refine keeps_skip.bind fun _ => (keeps_nodeUnless _ _ _ fuel).bind fun _ => ?_
      exact keeps_blockItems fuel
    · exact keeps_fail

theorem keeps_indentlessItems : (fuel : Nat) → (indentlessItems fuel).Keeps origin
  | 0 => keeps_pure
  | fuel + 1 => by
    rw [indentlessItems]
    refine keeps_peek_bind fun t ht => keeps_ite ?_ (keeps_tell trivial)
    refine keeps_skip.bind fun _ => (keeps_nodeUnless _ _ _ fuel).bind fun _ => ?_
    exact keeps_indentlessItems fuel

theorem keeps_flowMembers (first : Bool) : (fuel : Nat) → (flowMembers first fuel).Keeps origin
  | 0 => keeps_pure
  | fuel + 1 => by
    rw [flowMembers]
    refine keeps_peek_bind fun t ht => ?_
    refine keeps_ite (keeps_skip.bind fun _ => keeps_tell trivial) ?_
    refine keeps_comma (keeps_peek_bind fun t' ht' => ?_)
    dsimp only
    split
    · exact keeps_skip.bind fun _ => keeps_tell trivial
    · refine keeps_skip.bind fun _ => (keeps_nodeUnless _ _ _ fuel).bind fun _ => ?_
      exact (keeps_flowValue fuel).bind fun _ => keeps_flowMembers false fuel
    · refine keeps_missing.bind fun _ => ?_
      exact (keeps_flowValue fuel).bind fun _ => keeps_flowMembers false fuel
    · refine (keeps_node _ _ fuel).bind fun _ => keeps_peek_bind fun t'' ht'' => ?_
      exact keeps_missing.bind fun _ => keeps_flowMembers false fuel

theorem keeps_flowValue : (fuel : Nat) → (flowValue fuel).Keeps origin
  | 0 => keeps_pure
  | fuel + 1 => by
    rw [flowValue]
    refine keeps_peek_bind fun t ht => keeps_ite ?_ keeps_missing
    refine keeps_skip.bind fun _ => keeps_peek_bind fun t' _ => ?_
    exact keeps_ite keeps_missing (keeps_node _ _ fuel)

theorem keeps_flowItems (first : Bool) : (fuel : Nat) → (flowItems first fuel).Keeps origin
  | 0 => keeps_pure
  | fuel + 1 => by
    rw [flowItems]
    refine keeps_peek_bind fun t ht => ?_
    refine keeps_ite (keeps_skip.bind fun _ => keeps_tell trivial) ?_
    refine keeps_comma (keeps_peek_bind fun ⟨p, kind⟩ ht' => ?_)
    dsimp only
    split
    · exact keeps_skip.bind fun _ => keeps_tell trivial
    · refine keeps_skip.bind fun _ => Keeps.bind (keeps_tell trivial) fun _ => ?_
      refine (keeps_pairKey fuel).bind fun _ => (keeps_pairValue fuel).bind fun _ => ?_
      refine keeps_peek_bind fun t'' _ => Keeps.bind (keeps_tell trivial) fun _ => ?_
      exact keeps_flowItems false fuel
    · exact (keeps_node _ _ fuel).bind fun _ => keeps_flowItems false fuel

theorem keeps_pairKey : (fuel : Nat) → (pairKey fuel).Keeps origin
  | 0 => keeps_pure
  | fuel + 1 => by
    rw [pairKey]
    refine keeps_peek_bind fun t ht => keeps_ite ?_ (keeps_node _ _ fuel)
    exact keeps_skip.bind fun _ => keeps_missing

theorem keeps_pairValue : (fuel : Nat) → (pairValue fuel).Keeps origin
  | 0 => keeps_pure
  | fuel + 1 => by
    rw [pairValue]
    refine keeps_peek_bind fun t ht => keeps_ite ?_ keeps_missing
    exact keeps_skip.bind fun _ => keeps_nodeUnless _ _ _ fuel

end

/-! ## Documents -/

theorem keeps_directives : (fuel : Nat) → (versioned : Bool) →
    (directives fuel versioned).Keeps origin
  | 0, _ => keeps_pure
  | fuel + 1, versioned => by
    have hrest : ∀ handle versioned, (do
        skip; declare handle; directives fuel versioned).Keeps origin := fun _ versioned =>
      keeps_skip.bind fun _ => keeps_declare.bind fun _ => keeps_directives fuel versioned
    rw [directives]
    refine keeps_peek_bind fun t _ => ?_
    dsimp only
    split
    · exact keeps_ite (keeps_fail.bind fun _ => hrest _ _) (hrest _ _)
    · exact hrest _ _
    · exact hrest _ _
    · exact keeps_pure

theorem keeps_documentEnds : (fuel : Nat) → (documentEnds fuel).Keeps origin
  | 0 => keeps_pure
  | fuel + 1 => by
    rw [documentEnds]
    refine keeps_peek_bind fun t _ => keeps_ite ?_ keeps_pure
    exact keeps_skip.bind fun _ => keeps_documentEnds fuel

theorem keeps_documentContent (implicit : Bool) (fuel : Nat) :
    (documentContent implicit fuel).Keeps origin := by
  have hcontent : ∀ p, (do
      skip; tell p .documentStart; nodeUnless endsDocument true false fuel).Keeps origin := fun p =>
    keeps_skip.bind fun _ => Keeps.bind (keeps_tell trivial) fun _ => keeps_nodeUnless _ _ _ fuel
  rw [documentContent]
  refine keeps_peek_bind fun t _ => keeps_ite ?_ ?_
  · exact Keeps.bind (keeps_tell trivial) fun _ => keeps_node _ _ fuel
  · refine (keeps_directives fuel false).bind fun _ => keeps_peek_bind fun t' _ => ?_
    exact keeps_ite (hcontent _) (keeps_fail.bind fun _ => hcontent _)

theorem keeps_documentEnd : documentEnd.Keeps origin := by
  have hend : ∀ p marked, (do
      declare none; tell p .documentEnd; return marked : Tell Bool).Keeps origin := fun _ _ =>
    keeps_declare.bind fun _ => Keeps.bind (keeps_tell trivial) fun _ => keeps_pure
  rw [documentEnd]
  refine keeps_peek_bind fun t _ => keeps_ite (keeps_skip.bind fun _ => hend _ _) ?_
  exact keeps_ite (keeps_fail.bind fun _ => hend _ _) (hend _ _)

theorem keeps_documents : (implicit : Bool) → (fuel : Nat) →
    (documents implicit fuel).Keeps origin
  | _, 0 => keeps_pure
  | implicit, fuel + 1 => by
    rw [documents]
    refine (keeps_documentEnds fuel).bind fun _ => keeps_peek_bind fun t _ => ?_
    refine keeps_ite (keeps_tell trivial) ?_
    refine Keeps.bind (keeps_modify fun _ hs => { hs with }) fun _ => ?_
    refine (keeps_documentContent implicit fuel).bind fun _ => ?_
    exact keeps_documentEnd.bind fun marked => keeps_documents marked fuel

end Tell

/-- **Every event of a text is marked where it stands.** -/
theorem Event.isMarked_of_ofText {text : String} {es : List Event}
    (h : Event.ofText text = .ok es) :
    ∀ e ∈ es, e.IsMarked (Cursor.ofText text) := by
  have hstream := TokenStream.isMarked_ofText text
  have hstart : ({ stream := TokenStream.ofText text } : Telling).IsMarked (Cursor.ofText text) :=
    ⟨hstream.tokens, fun _ he => absurd he (Array.not_mem_empty _)⟩
  have hkeeps : ∀ fuel, (do Tell.tell {} .streamStart; Tell.documents true fuel).Keeps
      (Cursor.ofText text) := fun fuel =>
    Tell.Keeps.bind (Tell.keeps_tell trivial) fun _ => Tell.keeps_documents true fuel
  rw [Event.ofText, Event.ofTokens] at h
  cases hrun : (do
      Tell.tell {} .streamStart
      Tell.documents true (4 * (TokenStream.ofText text).tokens.length + 4)).run
        { stream := TokenStream.ofText text } with
  | error fault =>
    rw [hrun] at h
    cases h
  | ok r =>
    rw [hrun] at h
    cases h
    intro e he
    exact (hkeeps _ _ r.1 r.2 hrun hstart).events e (Array.mem_toList_iff.1 he)

end TestScript.Yaml
