import TestScript.Proofs.Grammar.Productions

/-!
# Objects have one place in a script

Behind the keyword of a blob any object may stand. So a list of tokens that is viable up to such a
keyword stays so with an object behind it, whatever that object is (`takesObjects_script`): an
object is never what is wrong with a script.
-/

namespace TestScript.Script

/-- The token is the keyword of a blob. -/
def Token.OpensBlob (t : Token) : Prop :=
  ∃ (k : Keyword) (mappingOnly : Bool), t.kind = .keyword k ∧ k.shape = .blob mappingOnly

/-- The token is an object. -/
def Token.IsObject (t : Token) : Prop :=
  ∃ payload, t.kind = .object payload

namespace Form

variable {α β η σ : Type}

/-- Behind the keyword of a blob, a beginning of a phrase goes on with any object. -/
structure TakesObjects (F : Form α) : Prop where
  viable : F.Viable []
  next : ∀ {w k t}, F.Viable (w ++ [k]) → k.OpensBlob → t.IsObject → F.Next (w ++ [k]) t

/-- A token of two phrases in a row is one of the first phrase, or of the second. -/
theorem cut_append {u v w more : List Token} {k : Token} (h : w ++ [k] ++ more = u ++ v) :
    (∃ c, u = w ++ [k] ++ c) ∨ ∃ c, w = u ++ c ∧ v = c ++ [k] ++ more := by
  rcases List.append_eq_append_iff.1 h with ⟨c, hu, -⟩ | ⟨c, hw, rfl⟩
  · exact .inl ⟨c, hu⟩
  · rcases List.eq_nil_or_concat c with rfl | ⟨c, x, rfl⟩
    · exact .inl ⟨[], by simpa using hw.symm⟩
    · rw [List.concat_eq_append, ← List.append_assoc] at hw
      obtain ⟨rfl, hx⟩ := List.append_inj' hw rfl
      obtain rfl := List.singleton_inj.1 hx
      exact .inr ⟨c, rfl, by simp⟩

/-- Only the first of two phrases in a row needs to be looked at where a keyword stands in it. -/
theorem takesObjects_bind_of_next {F : Form α} {G : α → Form β} (hF : F.Viable [])
    (hnext : ∀ w k t, F.Viable (w ++ [k]) → k.OpensBlob → t.IsObject → (F >>= G).Next (w ++ [k]) t)
    (hG : ∀ a, (G a).TakesObjects) : (F >>= G).TakesObjects where
  viable := Viable.bind (fun a => (hG a).viable) hF
  next := by
    intro w k t h hk ht
    obtain ⟨more, b, hb⟩ := h
    obtain ⟨u, v, a, h, ha, hb⟩ := derives_bind.1 hb
    rcases cut_append h with ⟨c, rfl⟩ | ⟨c, rfl, rfl⟩
    · exact hnext w k t ha.spells.viable.of_append hk ht
    · have hv : (G a).Next (c ++ [k]) t := (hG a).next hb.spells.viable.of_append hk ht
      simpa [Next] using ha.viable_bind hv

theorem TakesObjects.bind {F : Form α} {G : α → Form β} (hF : F.TakesObjects)
    (hG : ∀ a, (G a).TakesObjects) : (F >>= G).TakesObjects :=
  takesObjects_bind_of_next hF.viable
    (fun _ _ _ h hk ht => Viable.bind (fun a => (hG a).viable) (hF.next h hk ht)) hG

/-- A form without keywords of blobs has nothing to take. -/
theorem takesObjects_of_within {F : Form α} {S : Set Token} (hviable : F.Viable [])
    (hF : F.Within S) (hS : ∀ t ∈ S, ¬ t.OpensBlob) : F.TakesObjects where
  viable := hviable
  next := by
    intro w k t h hk ht
    obtain ⟨more, a, ha⟩ := h
    exact absurd hk (hS k (hF _ a ha k (by simp)))

theorem TakesObjects.pure (a : α) : (Pure.pure a : Form α).TakesObjects :=
  takesObjects_of_within (Typed.pure a).viable (Within.pure (S := ∅) a) (by simp)

theorem TakesObjects.map {F : Form α} (g : α → β) (hF : F.TakesObjects) :
    (F >>= fun a => Pure.pure (g a)).TakesObjects :=
  hF.bind fun a => .pure (g a)

theorem TakesObjects.opt {F : Form α} (hF : F.TakesObjects) : F.opt.TakesObjects where
  viable := viable_opt.2 (.inl rfl)
  next h hk ht := next_opt.2 (hF.next ((viable_opt.1 h).resolve_left (by simp)) hk ht)

theorem TakesObjects.optUnless {F : Form α} {isEmpty : α → Bool} (hF : F.TakesObjects) :
    (F.optUnless isEmpty).TakesObjects :=
  hF.opt.map _

theorem TakesObjects.many {F : Form α} (hF : F.TakesObjects) : F.many.TakesObjects where
  viable := viable_many.2 (.inl rfl)
  next := by
    intro w k t h hk ht
    obtain ⟨more, as, has⟩ := h
    -- The keyword stands in one of the phrases, and in that one the object may follow.
    induction as generalizing w with
    | nil => simp at has
    | cons a as ih =>
      obtain ⟨u, v, h, ha, has⟩ := derives_many_cons.1 has
      apply viable_many.2 ∘ Or.inr
      rcases cut_append h with ⟨c, rfl⟩ | ⟨c, rfl, rfl⟩
      · exact Viable.bind (fun _ => viable_many.2 (.inl rfl))
          (hF.next ha.spells.viable.of_append hk ht)
      · simpa using ha.viable_bind (G := fun _ => F.many) (ih has)

/-! ## What belongs to a blob -/

theorem not_opensBlob_of_mem_contents {t : Token} (h : t ∈ contents) : ¬ t.OpensBlob := by
  rintro ⟨k, mappingOnly, hk, -⟩
  rcases h with ⟨text, ht⟩ | ⟨payload, ht⟩ <;> cases hk.symm.trans ht

theorem not_opensBlob_of_mem_keywordsAt {ks : List Keyword} {d : Nat}
    (hks : ∀ k ∈ ks, ∀ mappingOnly, k.shape ≠ .blob mappingOnly) {t : Token}
    (h : t ∈ keywordsAt ks d) : ¬ t.OpensBlob := by
  rintro ⟨k, mappingOnly, hk, hshape⟩
  obtain ⟨k', hk', ht, -⟩ := h
  cases ht.symm.trans hk
  exact hks k hk' mappingOnly hshape

theorem takesObjects_value : value.TakesObjects :=
  takesObjects_of_within (typed_value 0).viable (within_value subset_rfl) fun _ =>
    not_opensBlob_of_mem_contents

theorem takesObjects_object : object.TakesObjects :=
  takesObjects_of_within (typed_object 0).viable (within_object subset_rfl) fun _ =>
    not_opensBlob_of_mem_contents

theorem takesObjects_retryCount : retryCount.TakesObjects :=
  takesObjects_of_within (S := contents) (typed_retryCount 0).viable
    (.token fun _ _ ⟨text, ht, _⟩ => .inl ⟨text, ht⟩) fun _ => not_opensBlob_of_mem_contents

theorem takesObjects_identifier (d : Nat) : (identifier d).TakesObjects := by
  refine takesObjects_of_within (S := identifiersAt d) typed_identifier.viable
    (.token fun _ _ h => ⟨⟨_, h.1⟩, h.2.1⟩) ?_
  rintro t ⟨⟨text, ht⟩, -⟩ ⟨k, mappingOnly, hk, -⟩
  cases ht.symm.trans hk

theorem takesObjects_keyword {k : Keyword} (d : Nat)
    (hk : ∀ mappingOnly, k.shape ≠ .blob mappingOnly) : (keyword k d).TakesObjects :=
  takesObjects_of_within (S := keywordsAt [k] d) typed_keyword.viable
    (.token fun _ _ h => ⟨k, List.mem_singleton.2 rfl, h.1, h.2.1⟩) fun _ =>
      not_opensBlob_of_mem_keywordsAt (by simpa using hk)

/-- A keyword with an object behind it. -/
theorem takesObjects_blob {means : Token → α → Prop} {C : α → Param → Form β}
    (hmeans : ∃ t a, means t a) (hC : ∀ a p, (C a p).TakesObjects) :
    (token means >>= fun a => object >>= C a).TakesObjects := by
  have hcontent : ∀ a, (object >>= C a).TakesObjects := fun a =>
    takesObjects_object.bind fun p => hC a p
  obtain ⟨t, a, h⟩ := hmeans
  refine takesObjects_bind_of_next ⟨[t], a, derives_token.2 ⟨t, rfl, h⟩⟩ ?_ hcontent
  intro w k t hviable _ ht
  obtain ⟨more, a, ha⟩ := hviable
  obtain ⟨x, hx, hmean⟩ := derives_token.1 ha
  obtain ⟨rfl, rfl⟩ : w = [] ∧ k = x := by cases w <;> simp_all
  obtain ⟨payload, ht⟩ := ht
  have hobject : object.Derives [t] ⟨payload, t.position⟩ := derives_token.2 ⟨t, rfl, ht, rfl⟩
  have hk : (token means).Derives [k] a := derives_token.2 ⟨k, rfl, hmean⟩
  exact hk.viable_bind (hobject.viable_bind (hC a _).viable)

/-! ## The forms of a script -/

theorem takesObjects_markers (d : Nat) : (markers d).TakesObjects :=
  (takesObjects_keyword d (by decide)).bind fun _ => takesObjects_value.many.map _

theorem takesObjects_params (k : Keyword) (d : Nat) : (params k d).TakesObjects :=
  takesObjects_blob ⟨⟨.keyword k, {}, d⟩, {}, rfl, rfl, rfl⟩ fun _ _ =>
    takesObjects_object.many.map _

theorem takesObjects_hooks {step : Nat → Form σ} {k : Keyword} (d : Nat)
    (hk : ∀ mappingOnly, k.shape ≠ .blob mappingOnly) (hstep : (step (d + 1)).TakesObjects) :
    (hooks step k d).TakesObjects :=
  (takesObjects_keyword d hk).bind fun _ => hstep.many.map _

theorem takesObjects_step {hooks : Nat → Form η} (d : Nat) (hhooks : (hooks (d + 1)).TakesObjects) :
    (step hooks d).TakesObjects := by
  refine (takesObjects_identifier d).bind fun _ => TakesObjects.bind ?_ fun _ =>
    TakesObjects.bind ?_ fun _ => TakesObjects.bind ?_ fun _ => TakesObjects.bind ?_ fun _ =>
    TakesObjects.bind ?_ fun _ => hhooks.bind fun _ => TakesObjects.bind ?_ fun _ =>
    TakesObjects.bind ?_ fun _ => TakesObjects.map _ ?_
  · exact ((takesObjects_keyword _ (by decide)).bind fun _ => takesObjects_value.map _).opt
  · exact ((takesObjects_keyword _ (by decide)).bind fun _ => takesObjects_value.many.map _).opt
  · exact (takesObjects_markers _).optUnless
  · exact ((takesObjects_keyword _ (by decide)).bind fun _ => takesObjects_retryCount.map _).opt
  · exact (takesObjects_blob ⟨⟨.keyword .foreach, {}, _⟩, (.foreach, {}), .inr ⟨rfl, rfl⟩, rfl, rfl⟩
      fun _ _ => .pure _).opt
  · exact ((takesObjects_keyword _ (by decide)).bind fun _ => takesObjects_value.map _).opt
  · exact (takesObjects_params _ _).opt
  · exact (takesObjects_params _ _).opt

theorem takesObjects_ownHooks (d : Nat) : (ownHooks d).TakesObjects := by
  have hstep : (hookStep (d + 1)).TakesObjects := takesObjects_step _ (.pure ())
  refine TakesObjects.bind ?_ fun _ => TakesObjects.map _ ?_
  · exact (takesObjects_hooks d (by decide) hstep).optUnless
  · exact (takesObjects_hooks d (by decide) hstep).optUnless

/-- **Behind the keyword of a blob, any object will do.** -/
theorem takesObjects_script : script.TakesObjects := by
  have hstep : (mainStep 1).TakesObjects := takesObjects_step _ (takesObjects_ownHooks _)
  refine (takesObjects_keyword 0 (by decide)).bind fun _ => takesObjects_value.bind fun _ =>
    (takesObjects_markers 0).optUnless.bind fun _ => TakesObjects.bind ?_ fun _ =>
    TakesObjects.bind ?_ fun _ => (takesObjects_keyword 0 (by decide)).bind fun _ =>
    hstep.bind fun _ => hstep.many.map _
  · exact (takesObjects_hooks 0 (by decide) hstep).optUnless
  · exact (takesObjects_hooks 0 (by decide) hstep).optUnless

end Form
end TestScript.Script
