import TestScript.Document.Load
import TestScript.Proofs.Yaml.Nesting

/-!
# What loading a text reports

The events of a text are those of a stream, whatever the text is. So what is said of streams holds
of texts: loading reports the first event that is to blame (`load_refuses_earliest`). A fault of the
text itself comes before that, even one that stands further behind.
-/

namespace TestScript.Document

open Yaml (Event)

variable {text : String}

theorem load_of_fault {fault : Yaml.Fault} (h : Event.ofText text = .error fault) :
    load text = .error ⟨.fault fault.cause, fault.position⟩ := by
  rw [load, h]
  rfl

theorem load_of_events {es : List Event} (h : Event.ofText text = .ok es) :
    load text = ofEvents es := by
  rw [load, h]
  rfl

theorem ofEvents_of_refusal {es : List Event} {why : Refusal} {p : Position}
    (h : (Builder.run es).refusal = some (why, p)) : ofEvents es = .error ⟨.refused why, p⟩ := by
  rw [ofEvents]
  simp only [h]

theorem ofEvents_of_no_refusal {es : List Event} (h : (Builder.run es).refusal = none) :
    ofEvents es = .ok ((Builder.run es).root.getD (.null {})) := by
  rw [ofEvents]
  simp only [h]

/-- The events of a stream are loaded unless one of them is refused. -/
theorem ofEvents_stream (s : DescribedStream) :
    ((∃ root, ofEvents s.events = .ok root) ↔ ∀ x ∈ s.judged, x.2 = none) ∧
    ∀ before e why after, s.judged = before ++ (e, some why) :: after →
      (∀ x ∈ before, x.2 = none) → ofEvents s.events = .error ⟨.refused why, e.position⟩ := by
  have hstream := refusesEarliest s
  constructor
  · rw [← hstream.refusal_eq_none_iff]
    cases hrefusal : (Builder.run s.events).refusal with
    | none => simp [ofEvents_of_no_refusal hrefusal]
    | some r => simp [ofEvents_of_refusal hrefusal]
  · intro before e why after hjudged hbefore
    have hrefused := hstream.refused before e why after hjudged hbefore (after.map Prod.fst)
    have hevents : before.map Prod.fst ++ e :: after.map Prod.fst = s.events := by
      rw [← hstream.events_eq, hjudged, List.map_append, List.map_cons]
    rw [hevents] at hrefused
    exact ofEvents_of_refusal hrefused.refusal_eq

/-- A stream that is loaded has no document, or it has one and that is a tree. -/
theorem root_of_ofEvents_stream {s : DescribedStream} {root : Node}
    (h : ofEvents s.events = .ok root) :
    (s.documents = [] ∧ root = .null {}) ∨
      ∃ d, s.documents = [d] ∧ d.root.IsTree ∧ root = d.root.tree := by
  have hnone : NoneRefused s.judged := (ofEvents_stream s).1.1 ⟨root, h⟩
  have hrefusal := (refusesEarliest s).refusal_eq_none_iff.2 hnone
  rw [ofEvents_of_no_refusal hrefusal] at h
  obtain ⟨start, documents, stop⟩ := s
  have hdocuments : NoneRefused (judgedDocuments none documents) :=
    (noneRefused_append.1 (noneRefused_cons.1 hnone).2).1
  cases documents with
  | nil =>
    cases h
    exact .inl ⟨rfl, rfl⟩
  | cons d ds =>
    obtain ⟨hfirst, hothers⟩ := noneRefused_append.1 hdocuments
    cases ds with
    | cons d' ds =>
      -- A second document would have been refused at its start.
      cases hothers _ List.mem_cons_self
    | nil =>
      have hroot : NoneRefused (d.root.judged .node) :=
        (noneRefused_append.1 (noneRefused_cons.1 hfirst).2).1
      have hevents : DescribedStream.events ⟨start, [d], stop⟩ =
          ⟨start, .streamStart⟩ :: (d.judged none).map Prod.fst ++ [⟨stop, .streamEnd⟩] := by
        simp [DescribedStream.events, DescribedDocument.judged, DescribedDocument.events,
          Described.map_fst_judged]
      have hstart : ({} : Builder).step ⟨start, .streamStart⟩ = {} := rfl
      rw [Builder.run, hevents, List.cons_append, List.foldl_cons, List.foldl_append, hstart,
        Builder.foldl_step_firstDocument hfirst] at h
      cases h
      exact .inr ⟨d, rfl, Described.isTree_of_noneRefused d.root hroot, rfl⟩

/-- **A stream is refused for its first event that is to blame, and so is a text.** The builder
takes all events of a stream in which none is; otherwise it stays as it was at the first that is. A
text that is not YAML is reported as such, whatever its events would be refused for. -/
theorem load_refuses_earliest :
    (∀ s : DescribedStream, RefusesEarliest s) ∧
    ∀ text, match Event.ofText text with
      | .error fault => load text = .error ⟨.fault fault.cause, fault.position⟩
      | .ok es => ∃ s : DescribedStream, s.events = es ∧
        ((∃ root, load text = .ok root) ↔ ∀ x ∈ s.judged, x.2 = none) ∧
        ∀ before e why after, s.judged = before ++ (e, some why) :: after →
          (∀ x ∈ before, x.2 = none) → load text = .error ⟨.refused why, e.position⟩ := by
  refine ⟨refusesEarliest, fun text => ?_⟩
  split
  · next fault h => exact load_of_fault h
  · next es h =>
    obtain ⟨s, rfl, -⟩ := Yaml.exists_stream_of_ofText h
    rw [load_of_events h]
    exact ⟨s, rfl, ofEvents_stream s⟩

/-- A key of the mapping around it is no duplicate, and an alias in a list that should be a key is
not the first to blame. -/
example :
    (Builder.run
      [⟨⟨0, 0⟩, .streamStart⟩, ⟨⟨0, 0⟩, .documentStart⟩, ⟨⟨0, 1⟩, .mappingStart⟩,
        ⟨⟨0, 0⟩, .scalar .plain "a"⟩, ⟨⟨0, 3⟩, .mappingStart⟩,
        ⟨⟨0, 4⟩, .scalar .plain "a"⟩, ⟨⟨0, 6⟩, .scalar .plain ""⟩, ⟨⟨0, 6⟩, .mappingEnd⟩,
        ⟨⟨1, 2⟩, .sequenceStart⟩, ⟨⟨1, 3⟩, .alias⟩, ⟨⟨1, 5⟩, .sequenceEnd⟩,
        ⟨⟨2, 2⟩, .scalar .plain ""⟩, ⟨⟨3, 0⟩, .scalar .plain "a"⟩, ⟨⟨3, 3⟩, .scalar .plain ""⟩,
        ⟨⟨4, 0⟩, .mappingEnd⟩, ⟨⟨4, 0⟩, .documentEnd⟩, ⟨⟨4, 0⟩, .streamEnd⟩]).refusal =
      some (.keyNotScalar, ⟨1, 2⟩) := by
  decide

end TestScript.Document
