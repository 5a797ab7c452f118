import TestScript.Document.Payload
import TestScript.Proofs.Document.Construction
import TestScript.Proofs.Number.Literals

/-!
# What a scalar reads as

`ReadsAs` says what a plain scalar is, from the form of its text alone. An integer that some 64-bit
word holds is that integer, and a wider one stays a text: it is never rounded and never wraps. A
decimal is the number nearest to it, unless it is too large for the format. A scalar with quotes, or
written as a block, is a text whatever stands in it (`readsAs_toPayload`).
-/

namespace TestScript.Document

open Number
open Yaml (Style)

/-! ## Forms -/

/-- The spellings of a boolean. -/
def boolSpellings : Bool → List String
  | true => ["true", "True", "TRUE"]
  | false => ["false", "False", "FALSE"]

/-- The texts that denote an integer. -/
def IsInteger (text : String) : Prop :=
  ∃ n, DenotesInteger text.toList n

/-- The texts that denote a number within the range of the format. -/
def IsFinite (text : String) : Prop :=
  ∃ negative v, DenotesDecimal text.toList negative v ∧ v < Double.overflow

/-- What the text of a plain scalar reads as. -/
inductive ReadsAs (text : String) : Payload → Prop
  | integer {n : Int} (h : DenotesInteger text.toList n) (hlow : -2 ^ 63 ≤ n)
    (hhigh : n ≤ 2 ^ 64 - 1) : ReadsAs text (.int n)
  | wide {n : Int} (h : DenotesInteger text.toList n) (hwide : n < -2 ^ 63 ∨ 2 ^ 64 - 1 < n) :
    ReadsAs text (.text text)
  | float {negative : Bool} {v : ℚ} {x : Double} (hint : ¬ IsInteger text)
    (h : DenotesDecimal text.toList negative v) (hv : v < Double.overflow)
    (hsign : x.negative = negative) (hx : x.IsNearest v) : ReadsAs text (.float x)
  | bool {b : Bool} (hint : ¬ IsInteger text) (hfinite : ¬ IsFinite text)
    (h : text ∈ boolSpellings b) : ReadsAs text (.bool b)
  | text (hint : ¬ IsInteger text) (hfinite : ¬ IsFinite text)
    (h : ∀ b, text ∉ boolSpellings b) : ReadsAs text (.text text)

/-! ## Reading -/

theorem fitsWord_iff {n : Int} : fitsWord n = true ↔ -2 ^ 63 ≤ n ∧ n ≤ 2 ^ 64 - 1 := by
  simp only [fitsWord, Bool.and_eq_true, decide_eq_true_eq, Int.pow_eq]
  omega

theorem readsAs_plainPayload (text : String) : ReadsAs text (plainPayload text) := by
  rw [plainPayload]
  split
  · next n hn =>
    have hdenotes := readInteger?_eq_some_iff.1 hn
    split
    · next hfits => exact .integer hdenotes (fitsWord_iff.1 hfits).1 (fitsWord_iff.1 hfits).2
    · next hfits =>
      rw [fitsWord_iff] at hfits
      exact .wide hdenotes (by omega)
  · next hnone =>
    have hint : ¬ IsInteger text := by
      rintro ⟨n, hn⟩
      rw [readInteger?_eq_some_iff.2 hn] at hnone
      cases hnone
    split
    · next x hx =>
      obtain ⟨negative, v, hdenotes⟩ := Double.denotesDecimal_of_read? hx
      have hspec := Double.read?_spec hdenotes
      rcases lt_or_ge v Double.overflow with hv | hv
      · obtain ⟨y, hy, hsign, hnearest⟩ := hspec.1 hv
        obtain rfl : x = y := Option.some.inj (hx ▸ hy)
        exact .float hint hdenotes hv hsign hnearest
      · rw [hspec.2 hv] at hx
        cases hx
    · next hnot =>
      have hfinite : ¬ IsFinite text := by
        rintro ⟨negative, v, hdenotes, hv⟩
        obtain ⟨x, hx, -, -⟩ := (Double.read?_spec hdenotes).1 hv
        rw [hnot] at hx
        cases hx
      split
      · next h => exact .bool hint hfinite (by simpa [boolSpellings] using h)
      · next htrue =>
        split
        · next h => exact .bool hint hfinite (by simpa [boolSpellings] using h)
        · next hfalse =>
          refine .text hint hfinite fun b => ?_
          cases b
          · simpa [boolSpellings] using hfalse
          · simpa [boolSpellings] using htrue

/-! ## Readers in turn -/

/-- The value of a plain scalar that is no number. -/
def wordPayload (text : String) : Payload :=
  if text ∈ boolSpellings true then .bool true
  else if text ∈ boolSpellings false then .bool false
  else .text text

/-- The value that three readers in turn find: of an integer of 64 bits with a sign, of one without,
and of a decimal, which leaves integers alone. -/
def payloadInTurn (text : String) : Payload :=
  match (readInteger? text.toList).filter fun n => -2 ^ 63 ≤ n ∧ n < 2 ^ 63 with
  | some n => .int n
  | none =>
    match readNatBelow? (2 ^ 64) text.toList with
    | some n => .int n
    | none =>
      match (Double.read? text.toList).filter fun _ => !isIntegerLiteral text.toList with
      | some x => .float x
      | none => wordPayload text

theorem readInteger?_of_mem_boolSpellings {text : String} {b : Bool} (h : text ∈ boolSpellings b) :
    readInteger? text.toList = none := by
  revert text
  cases b <;> decide

theorem wordPayload_of_isInteger {text : String} (h : IsInteger text) :
    wordPayload text = .text text := by
  have hnot : ∀ b, text ∉ boolSpellings b := by
    intro b hb
    obtain ⟨n, hn⟩ := h
    rw [← readInteger?_eq_some_iff, readInteger?_of_mem_boolSpellings hb] at hn
    cases hn
  rw [wordPayload, if_neg (hnot true), if_neg (hnot false)]

/-- Without a sign an integer is read as the same number, unless it is negative or too large. A zero
with a minus is the one integer on which the readers differ. -/
theorem readNatBelow?_of_denotes {cs : List Char} {bound m : Nat} {n : Int}
    (h : DenotesInteger cs n) (hn : n ≠ 0) :
    readNatBelow? bound cs = some m ↔ n = m ∧ m < bound := by
  rw [readNatBelow?_eq_some_iff]
  constructor
  · rintro ⟨sign, ds, rfl, hsign, hne, hds, rfl, hlt⟩
    rw [← isSign_false_iff] at hsign
    rw [← readInteger?_eq_some_iff, readInteger?_eq_some_iff.2 (.plus hsign hne hds)] at h
    rw [ofDigits_eq_digitsValue] at hlt ⊢
    exact ⟨(Option.some.inj h).symm, hlt⟩
  · rintro ⟨hm, hlt⟩
    cases h with
    | plus hsign hne hds =>
      refine ⟨_, _, rfl, isSign_false_iff.1 hsign, hne, hds, ?_, hlt⟩
      rw [ofDigits_eq_digitsValue]
      exact_mod_cast hm
    | minus hne hds => omega

/-- The readers in turn find what the text reads as: no integer falls between the ranges of the
first two, and what they leave to the third is no integer. -/
theorem plainPayload_eq_payloadInTurn (text : String) :
    plainPayload text = payloadInTurn text := by
  rw [plainPayload, payloadInTurn, ← isSome_readInteger?]
  cases hn : readInteger? text.toList with
  | none =>
    have hnat : readNatBelow? (2 ^ 64) text.toList = none := by
      refine Option.eq_none_iff_forall_ne_some.2 fun m hm => ?_
      obtain ⟨sign, ds, hcs, hsign, hne, hds, -, -⟩ := readNatBelow?_eq_some_iff.1 hm
      rw [← isSign_false_iff] at hsign
      rw [hcs, readInteger?_eq_some_iff.2 (.plus hsign hne hds)] at hn
      cases hn
    rw [Option.filter_none, hnat]
    cases Double.read? text.toList with
    | none => simp [wordPayload, boolSpellings]
    | some x => rfl
  | some n =>
    have hdenotes := readInteger?_eq_some_iff.1 hn
    have hword : wordPayload text = .text text := wordPayload_of_isInteger ⟨n, hdenotes⟩
    have hdouble : (Double.read? text.toList).filter (fun _ => !(some n).isSome) = none := by
      simp
    rw [hdouble]
    by_cases hsigned : -2 ^ 63 ≤ n ∧ n < 2 ^ 63
    · have hfits : fitsWord n = true := fitsWord_iff.2 ⟨hsigned.1, by omega⟩
      rw [Option.filter_some, if_pos (decide_eq_true hsigned)]
      simp only [hfits, if_true]
    · have hfilter : (some n).filter (fun n => decide (-2 ^ 63 ≤ n ∧ n < 2 ^ 63)) = none := by
        rw [Option.filter_some, decide_eq_false hsigned, if_neg Bool.false_ne_true]
      have hne : n ≠ 0 := by
        rintro rfl
        exact hsigned (by decide)
      rw [hfilter]
      by_cases hfits : fitsWord n = true
      · rw [fitsWord_iff] at hfits
        obtain ⟨m, rfl⟩ := Int.eq_ofNat_of_zero_le (show 0 ≤ n by omega)
        have hnat : readNatBelow? (2 ^ 64) text.toList = some m :=
          (readNatBelow?_of_denotes hdenotes hne).2 ⟨rfl, by omega⟩
        simp only [fitsWord_iff.2 hfits, hnat, if_true]
      · have hnat : readNatBelow? (2 ^ 64) text.toList = none := by
          refine Option.eq_none_iff_forall_ne_some.2 fun m hm => hfits (fitsWord_iff.2 ?_)
          have := (readNatBelow?_of_denotes hdenotes hne).1 hm
          omega
        simp only [hfits, hnat, hword, if_false, Bool.false_eq_true]

/-- **A plain scalar reads as the number or the boolean that its text denotes, exactly or rounded
once, and as its text otherwise.** A scalar in any other style is a node with its text, and reads as
that text. -/
theorem readsAs_toPayload :
    (∀ text p, ReadsAs text (Node.scalar text false p).toPayload) ∧
    ∀ (style : Style) (text : String) (p : Position), style ≠ .plain →
      Described.scalarTree style text p = .scalar text true p ∧
      (Described.scalarTree style text p).toPayload = .text text := by
  refine ⟨fun text p => ?_, fun style text p hstyle => ?_⟩
  · rw [Node.toPayload, scalarPayload, if_neg Bool.false_ne_true]
    exact readsAs_plainPayload text
  · have htree : Described.scalarTree style text p = .scalar text true p := by
      rw [Described.scalarTree, if_neg fun h => hstyle h.1, decide_eq_true hstyle]
    refine ⟨htree, ?_⟩
    rw [htree, Node.toPayload, scalarPayload, if_pos rfl]

theorem readsAs_toPayload_folded :
    Style.folded ≠ .plain ∧ (Described.scalarTree .folded "1" ⟨0, 0⟩).toPayload = .text "1" :=
  ⟨by decide, (readsAs_toPayload.2 .folded "1" ⟨0, 0⟩ (by decide)).2⟩

end TestScript.Document
