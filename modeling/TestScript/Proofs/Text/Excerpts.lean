import Mathlib
import TestScript.Compile
import TestScript.Proofs.Document.Standing
import TestScript.Proofs.Text.Alignment
import TestScript.Proofs.Text.Places

/-!
# Excerpts show the line that an error is on

An error of a script that can be loaded is positioned where a key or a value of the document is
marked. In a text without a lone carriage return its excerpt shows the line of that key or value,
and what stands over the caret and behind it is what the key or value begins with: its first line, a
bracket, a dash or a brace (`showsPieces_of_compile`).

Two kinds of values do not stand over the caret. A list whose dashes are not indented under its key
is marked behind its first dash, on the line of the dash. A block scalar without a line of text has
nothing that could be seen, and is marked at whatever follows.

A lone carriage return ends a line for the reader of YAML, but not for the excerpt, and then the
excerpt of an error may show another line, or none (`fallback_loneReturn`).
-/

namespace TestScript

open Document (Entry Node)
open Text (IsLineAt NoLoneReturn excerptRows lineRow row)
open Yaml (Cursor Event IsEmptyBlock IsTrailing Opens StandsAt Style)

/-! ## What an excerpt shows -/

namespace Diagnostic

variable {d : Diagnostic} {source : String} {front behind : List Char}

/-- What is said about an error whose line does not exist. -/
def fallback (d : Diagnostic) : String :=
  d.label ++ " at line " ++ toString d.position.line

/-- An excerpt shows the line of an error behind the number of the line. The caret stands in the row
below, behind as many characters as stand in front of the error on its line. Both rows have their
bar in one column, since the number fits into the gutter. -/
structure Shows (d : Diagnostic) (source : String) (front behind : List Char) : Prop where
  line : IsLineAt source d.position front behind
  rows : ∃ width above below, (toString d.position.line).length ≤ width ∧
    d.render source = "\n".intercalate (above ++
      [row width (toString d.position.line) (" " ++ String.ofList (front ++ behind)),
        row width "" (" " ++ String.ofList (List.replicate front.length ' ') ++ "^ " ++ d.label)] ++
      below)
  ne_fallback : d.render source ≠ d.fallback

theorem excerptRows_of_line (message : String) {line : String} {lines : List String} {p : Position}
    (h : lines[p.line]? = some line) :
    ∃ width above below, (toString p.line).length ≤ width ∧ excerptRows message lines p =
      ("  --> " ++ toString p.line ++ ":" ++ toString p.column) :: above ++
        [row width (toString p.line) (" " ++ line),
          row width "" (" " ++ String.ofList (List.replicate p.column ' ') ++ "^ " ++ message)] ++
        below := by
  have hline : ∀ width,
      lineRow width lines p.line = [row width (toString p.line) (" " ++ line)] := by
    intro width
    rw [lineRow, h]
  have hwidth := Text.length_toString_mono (Nat.le_succ p.line)
  rw [excerptRows]
  generalize (toString (p.line + 1)).length = width at *
  refine ⟨width, row width "" "" :: if p.line = 0 then [] else lineRow width lines (p.line - 1),
    lineRow width lines (p.line + 1) ++ [row width "" ""], hwidth, ?_⟩
  simp only [hline, List.cons_append, List.nil_append, List.append_assoc]

/-- A label begins with the word for a stage. -/
theorem exists_head?_label (d : Diagnostic) : ∃ c, d.label.toList.head? = some c ∧ c ≠ ' ' := by
  rw [label]
  cases d.stage with
  | load => exact ⟨'l', by simp [Stage.word], by decide⟩
  | layout => exact ⟨'l', by simp [Stage.word], by decide⟩
  | grammar => exact ⟨'p', by simp [Stage.word], by decide⟩

theorem shows_of_isLineAt (hpath : d.path = none) (h : IsLineAt source d.position front behind) :
    d.Shows source front behind := by
  obtain ⟨width, above, below, hwidth, hrows⟩ := excerptRows_of_line d.label h.line
  have hrender : d.render source = "\n".intercalate (excerptRows d.label (Text.lines source)
      d.position) := by
    have hlt : d.position.line < (Text.lines source).length :=
      (List.getElem?_eq_some_iff.1 h.line).1
    rw [render, hpath, Text.excerpt]
    simp [hlt]
  rw [hrows] at hrender
  refine ⟨h, ⟨width, _, below, hwidth, by rw [h.column]; exact hrender⟩, fun hfallback => ?_⟩
  -- An excerpt begins with blanks, and a label does not.
  obtain ⟨c, hc, hne⟩ := exists_head?_label d
  have hhead := congrArg (·.toList.head?) (hrender.symm.trans hfallback)
  rw [List.cons_append, List.cons_append, String.intercalate_cons_of_ne_nil (by simp)] at hhead
  simp [fallback, hc] at hhead
  exact hne hhead.symm

end Diagnostic

/-! ## Keys and values -/

namespace Document

/-- What stands at a position of a document: a scalar in the style that it is written in, a list, an
inline mapping, or an indented one whose first key is missing. -/
inductive Piece where
  | scalar (style : Style) (text : String)
  | list
  | inline
  | unkeyed

/-- A key or a value of a document stands at a position. The events of the document tell in which
style a text is written. An indented mapping is where its first key is, also if that is missing.
Missing keys and values stand nowhere themselves. -/
inductive Node.Has (root : Node) (es : List Event) : Position → Piece → Prop
  | key {entries : List (Entry Node)} {p : Position} {flow : Bool} {e : Entry Node} {style : Style}
    (hn : (Node.mapping entries p flow).IsPart root) (he : e ∈ entries)
    (htold : ⟨e.position, .scalar style e.key⟩ ∈ es) (hwritten : IsWritten style e.key) :
    root.Has es e.position (.scalar style e.key)
  | scalar {text : String} {quoted : Bool} {p : Position} {style : Style}
    (hn : (Node.scalar text quoted p).IsPart root) (hquoted : quoted = true ↔ style ≠ .plain)
    (htold : ⟨p, .scalar style text⟩ ∈ es) (hwritten : IsWritten style text) :
    root.Has es p (.scalar style text)
  | null {text : String} {p : Position} (hn : (Node.null p).IsPart root)
    (hnull : Builder.isNull text) (htold : ⟨p, .scalar .plain text⟩ ∈ es)
    (hwritten : IsWritten .plain text) : root.Has es p (.scalar .plain text)
  | list {items : List Node} {p : Position} (hn : (Node.list items p).IsPart root) :
    root.Has es p .list
  | inline {entries : List (Entry Node)} {p : Position} {flow : Bool}
    (hn : (Node.mapping entries p flow).IsPart root) (hflow : flow = true ∨ entries = []) :
    root.Has es p .inline
  | indented {e : Entry Node} {entries : List (Entry Node)} {p : Position} {style : Style}
    (hn : (Node.mapping (e :: entries) p false).IsPart root)
    (htold : ⟨e.position, .scalar style e.key⟩ ∈ es) (hwritten : IsWritten style e.key) :
    root.Has es p (.scalar style e.key)
  | unkeyed {e : Entry Node} {entries : List (Entry Node)} {p : Position}
    (hn : (Node.mapping (e :: entries) p false).IsPart root)
    (hmissing : ∀ style, ⟨e.position, .scalar style e.key⟩ ∈ es → ¬ IsWritten style e.key) :
    root.Has es p .unkeyed

/-- What the reader of a document sees of the rest of a line. A NUL ends the text for it. -/
def visible (behind : List Char) : List Char :=
  behind.takeWhile (· ≠ '\x00')

/-- A line, in two parts at a mark, shows what stands there. The rest of the line opens a scalar,
unless that is a block scalar without a line of text. A list begins with a bracket or a dash, or the
mark is behind its dash. An inline mapping begins with its brace, or with what introduces its first
key: the indicator of a key, an anchor or a tag. If the first key of an indented mapping is missing,
then its colon is there, or what stands in front of that. -/
def Piece.IsOn : Piece → (front behind : List Char) → Prop
  | .scalar style text, _, behind =>
    Opens style text.toList (visible behind) ∨ IsEmptyBlock style text.toList
  | .list, front, behind => (visible behind).head? = some '[' ∨ (visible behind).head? = some '-' ∨
    ∃ before gap, front = before ++ '-' :: gap ∧ IsTrailing gap
  | .inline, _, behind => ∃ c ∈ ['\x7b', '?', '&', '!'], (visible behind).head? = some c
  | .unkeyed, _, behind => ∃ c ∈ [':', '*', '\x7b', '?', '&', '!'], (visible behind).head? = some c

variable {source : String} {es : List Event} {p : Position}

section

variable (hreturns : NoLoneReturn source.toList)
include hreturns

/-- A scalar that is told, and not missing, is on the line that it is marked at. -/
theorem isOn_of_told {style : Style} {text : String} (hes : Event.ofText source = .ok es)
    (htold : ⟨p, .scalar style text⟩ ∈ es) (hwritten : IsWritten style text) :
    ∃ front behind, IsLineAt source p front behind ∧
      (Piece.scalar style text).IsOn front behind := by
  obtain hmissing | ⟨rest, h, hline, hopens⟩ := Event.isMarked_of_ofText hes _ htold
  · exact absurd hmissing (by simpa [IsWritten, imp_iff_not_or] using hwritten)
  · obtain ⟨front, behind, hat, hbehind⟩ := Text.isLineAt_of_reaches hreturns h (.inr hline)
    refine ⟨front, behind, hat, ?_⟩
    rw [Piece.IsOn, visible, hbehind]
    exact hopens

theorem isOn_of_listStands (h : ListStands (Cursor.ofText source) p) :
    ∃ front behind, IsLineAt source p front behind ∧ Piece.list.IsOn front behind := by
  rcases h with hbracket | hdash | hbehind
  · obtain ⟨front, behind, hline, hhead⟩ := Text.isLineAt_of_standsAt hreturns hbracket
    exact ⟨front, behind, hline, .inl hhead⟩
  · obtain ⟨front, behind, hline, hhead⟩ := Text.isLineAt_of_standsAt hreturns hdash
    exact ⟨front, behind, hline, .inr (.inl hhead)⟩
  · obtain ⟨before, gap, behind, hline, hgap⟩ := Text.isLineAt_of_isBehindDash hreturns hbehind
    exact ⟨_, behind, hline, .inr (.inr ⟨before, gap, rfl, hgap⟩)⟩

/-- One of some characters is on the line that it stands at. -/
theorem isOn_of_standsAt {signs : List Char}
    (h : ∃ c ∈ signs, StandsAt (Cursor.ofText source) p c) : ∃ front behind,
      IsLineAt source p front behind ∧ ∃ c ∈ signs, (visible behind).head? = some c := by
  obtain ⟨c, hc, hstands⟩ := h
  obtain ⟨front, behind, hline, hhead⟩ := Text.isLineAt_of_standsAt hreturns hstands
  exact ⟨front, behind, hline, c, hc, hhead⟩

/-- Each key and each value of a loaded document is on the line that it is marked at. -/
theorem isOn_of_has {root : Node} (hes : Event.ofText source = .ok es)
    (hload : load source = .ok root) {piece : Piece} (h : root.Has es p piece) :
    ∃ front behind, IsLineAt source p front behind ∧ piece.IsOn front behind := by
  cases h with
  | key _ _ htold hwritten => exact isOn_of_told hreturns hes htold hwritten
  | scalar _ _ htold hwritten => exact isOn_of_told hreturns hes htold hwritten
  | null _ _ htold hwritten => exact isOn_of_told hreturns hes htold hwritten
  | list hn => exact isOn_of_listStands hreturns (stands_of_load hes hload hn).2
  | inline hn hflow => exact isOn_of_standsAt hreturns (introduced_of_load hes hload hn hflow)
  | indented hn htold hwritten =>
    obtain ⟨-, hfirst⟩ := stands_of_load hes hload hn
    rw [hfirst rfl _ rfl] at htold
    exact isOn_of_told hreturns hes htold hwritten
  | unkeyed hn hmissing =>
    exact isOn_of_standsAt hreturns (indicated_of_load hes hload hn hmissing)

end

end Document

/-! ## Errors of scripts -/

/-- An error that is not one of loading is one of a text that has been loaded. -/
theorem exists_load_of_compile {unit : Nat} {text : String} {d : Diagnostic}
    (h : compile unit text = .error d) (hstage : d.stage ≠ .load) :
    (∃ root, Document.load text = .ok root) ∧ d.path = none := by
  rw [compile, tokenize] at h
  cases hload : Document.load text with
  | error e =>
    rw [hload] at h
    cases h
    exact absurd rfl hstage
  | ok root =>
    refine ⟨⟨root, rfl⟩, ?_⟩
    cases hlayout : Script.tokensOf unit root with
    | error e =>
      simp only [hload, hlayout, Except.mapError, bind, Except.bind] at h
      cases h
      rfl
    | ok ts =>
      cases hgrammar : Script.ofTokens ts with
      | error e =>
        simp only [hload, hlayout, hgrammar, Except.mapError, bind, Except.bind] at h
        cases h
        rfl
      | ok s => simp [hload, hlayout, hgrammar, Except.mapError, bind, Except.bind] at h

/-- **The excerpt of an error shows the key or value that the error is positioned at.** A text whose
script has an error behind loading is that of a document, and the reader has told each key and each
scalar of it. If no carriage return stands alone in the text, then for each key and value at the
position of the error the excerpt shows its line, and what stands there from the caret on is what it
begins with, but for the exceptions that `Piece.IsOn` names. -/
theorem showsPieces_of_compile {unit : Nat} {text : String} {d : Diagnostic}
    (h : compile unit text = .error d) (hstage : d.stage ≠ .load)
    (hreturns : NoLoneReturn text.toList) :
    ∃ root es, Document.load text = .ok root ∧ Event.ofText text = .ok es ∧
      (∀ n : Node, n.IsPart root → n.IsToldBy es) ∧
      ∀ piece, root.Has es d.position piece →
        ∃ front behind, d.Shows text front behind ∧ piece.IsOn front behind := by
  obtain ⟨⟨root, hload⟩, hpath⟩ := exists_load_of_compile h hstage
  obtain ⟨es, hes⟩ : ∃ es, Event.ofText text = .ok es := by
    cases hevents : Event.ofText text with
    | error fault =>
      rw [Document.load_of_fault hevents] at hload
      cases hload
    | ok es => exact ⟨es, rfl⟩
  refine ⟨root, es, hload, hes, fun n hn => (Document.stands_of_load hes hload hn).1, ?_⟩
  intro piece hpiece
  obtain ⟨front, behind, hline, hpiece⟩ := Document.isOn_of_has hreturns hes hload hpiece
  exact ⟨front, behind, Diagnostic.shows_of_isLineAt hpath hline, hpiece⟩

/-- The error of a script with an unknown key in its second line. -/
def unknownKey : Diagnostic where
  stage := .grammar
  position := ⟨1, 0⟩
  message := "unexpected identifier 'bogus', expected one of MARKERS, BEFORE, AFTER, STEPS"

/-- The document of that script. -/
def unknownKeyRoot : Node :=
  .mapping [⟨"issue", ⟨0, 0⟩, .scalar "t" false ⟨0, 7⟩⟩,
    ⟨"bogus", ⟨1, 0⟩, .scalar "x" false ⟨1, 7⟩⟩] ⟨0, 0⟩ false

/-- The events of that document. -/
def unknownKeyEvents : List Event :=
  [⟨⟨0, 0⟩, .streamStart⟩, ⟨⟨0, 5⟩, .documentStart⟩, ⟨⟨0, 5⟩, .mappingStart⟩,
    ⟨⟨0, 0⟩, .scalar .plain "issue"⟩, ⟨⟨0, 7⟩, .scalar .plain "t"⟩,
    ⟨⟨1, 0⟩, .scalar .plain "bogus"⟩, ⟨⟨1, 7⟩, .scalar .plain "x"⟩,
    ⟨⟨2, 0⟩, .mappingEnd⟩, ⟨⟨2, 0⟩, .documentEnd⟩, ⟨⟨2, 0⟩, .streamEnd⟩]

theorem unknownKeyRoot_has :
    unknownKeyRoot.Has unknownKeyEvents unknownKey.position (.scalar .plain "bogus") :=
  .key (e := ⟨"bogus", ⟨1, 0⟩, .scalar "x" false ⟨1, 7⟩⟩) .self (by simp) (by decide)
    (.inr (by decide))

theorem showsPieces_unknownKey :
    compile 2 "issue: t\r\nbogus: x\n" = .error unknownKey ∧ unknownKey.stage ≠ .load ∧
      NoLoneReturn "issue: t\r\nbogus: x\n".toList ∧
      ∃ front behind, unknownKey.Shows "issue: t\r\nbogus: x\n" front behind ∧
        (Document.Piece.scalar .plain "bogus").IsOn front behind := by
  have hcompile : compile 2 "issue: t\r\nbogus: x\n" = .error unknownKey := by cbv
  have hreturns : NoLoneReturn "issue: t\r\nbogus: x\n".toList := by decide
  have hload : Document.load "issue: t\r\nbogus: x\n" = .ok unknownKeyRoot := by cbv
  have hevents : Event.ofText "issue: t\r\nbogus: x\n" = .ok unknownKeyEvents := by cbv
  have hstage : unknownKey.stage ≠ .load := by decide
  obtain ⟨root, es, hroot, hes, -, hshows⟩ := showsPieces_of_compile hcompile hstage hreturns
  obtain rfl : unknownKeyRoot = root := Except.ok.inj (hload.symm.trans hroot)
  obtain rfl : unknownKeyEvents = es := Except.ok.inj (hevents.symm.trans hes)
  exact ⟨hcompile, hstage, hreturns, hshows _ unknownKeyRoot_has⟩

/-- A lone carriage return ends a line for the reader of the document. The excerpt knows no such
line. -/
theorem fallback_loneReturn :
    compile 2 "issue: t\rbogus: x\n" = .error unknownKey ∧ unknownKey.stage ≠ .load ∧
      Document.load "issue: t\rbogus: x\n" = .ok unknownKeyRoot ∧
      Event.ofText "issue: t\rbogus: x\n" = .ok unknownKeyEvents ∧
      unknownKeyRoot.Has unknownKeyEvents unknownKey.position (.scalar .plain "bogus") ∧
      unknownKey.render "issue: t\rbogus: x\n" = unknownKey.fallback :=
  ⟨by cbv, by decide, by cbv, by cbv, unknownKeyRoot_has, by cbv⟩

end TestScript
