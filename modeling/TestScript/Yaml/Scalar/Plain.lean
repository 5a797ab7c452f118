import TestScript.Yaml.Scalar.Folding

/-!
# Plain scalars

A plain scalar is a run of words. A word ends at a gap, at a colon in front of a gap, and in a
flow collection also at an indicator of flow collections and at a colon in front of one. The
scalar ends where no word follows, at a comment, at a document marker, and, outside flow
collections, where a line is indented too little.
-/

namespace TestScript.Yaml.Plain

/-- Whether `c`, with `next` behind it, cannot belong to a word. -/
def endsWord (inFlow : Bool) (c next : Char) : Bool :=
  isGap c || (c = ':' && (isGap next || inFlow && isFlow next)) || inFlow && isFlow c

/-- The word at the start of a text. -/
def word (inFlow : Bool) : List Char → List Char
  | [] => []
  | c :: cs => if endsWord inFlow c (cs.headD '\x00') then [] else c :: word inFlow cs

/-- Reads the gap behind a word. A tab may not indent a line that has content; the fault is
reported at `start`. -/
def gap (start : Position) (need : Int) :
    (bound : List Char) → Cursor → Folding → Except Fault (Cursor × Folding)
  | [], c, f => pure (c, f)
  | _ :: bound, c, f =>
    if isBlank c.next then
      if !c.fresh then
        gap start need bound (c.skipBlanks 1) (f.blank c.next)
      else if c.before need && c.next = '\t' then do
        let (_, _, c) ← c.skipTrailing
        if isLineEnd c.next then gap start need bound c f else throw ⟨.plainTab, start⟩
      else
        gap start need bound (c.skipBlanks 1) f
    else if isBreak c.next then
      gap start need bound c.newline (if c.fresh then f.laterBreak else f.firstBreak)
    else
      pure (c, f)

/-- Reads words and the gaps between them; `text` is what has been read, its last character
first. -/
def words (start : Position) (inFlow : Bool) (need : Int) :
    (bound : List Char) → Cursor → Folding → List Char → Except Fault (List Char × Cursor)
  | [], c, _, text => pure (text, c)
  | _ :: bound, c, f, text =>
    if c.atDocumentMarker || c.next = '#' then pure (text, c)
    else if inFlow && c.next = '-' && isFlow (c.look 1) then throw ⟨.plainDash, c.position⟩
    else do
      let w := word inFlow c.rest
      let (text, c, f) :=
        if w.isEmpty then (text, c, f)
        else
          (w.reverse ++ ((if c.fresh then f.acrossLines else f.blanks).reverse ++ text),
            c.advance w.length, ({} : Folding))
      if isBlank c.next || isBreak c.next then
        let (c, f) ← gap start need c.rest c f
        if !inFlow && c.before need then pure (text, c)
        else words start inFlow need bound c f text
      else
        pure (text, c)

/-- Reads a plain scalar whose lines must reach the column `need`. -/
def read (inFlow : Bool) (need : Int) (c : Cursor) : Except Fault (String × Cursor) := do
  if inFlow && c.before need then throw ⟨.plainInFlowIndentation, c.position⟩
  let (text, c) ← words c.position inFlow need c.rest c {} []
  pure (String.ofList text.reverse, c)

end TestScript.Yaml.Plain
