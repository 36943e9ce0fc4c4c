import SyntaxWalk.Diagnostic
import SyntaxWalk.Text.Width

/-!
# Source excerpts

A diagnostic drawn over the lines it is about: the located characters of one line are underlined,
with an arrow from their middle to the description; of several lines the first and the last are
shown, joined at the side. All is measured in cells, so that marks stand under what they mark.
-/

namespace SyntaxWalk

namespace Excerpt

/-- Vertical tab, form feed, next line, and the line and paragraph separators end a line too. -/
def endsLine (c : Char) : Bool :=
  c = '\n' || c = '\r' || c = '\x0b' || c = '\x0c' || c = '\u0085' || c = '\u2028' || c = '\u2029'

def lines : List Char → List (List Char)
  | [] => []
  | '\r' :: '\n' :: rest => ['\r', '\n'] :: lines rest
  | c :: rest =>
    if endsLine c then [c] :: lines rest
    else
      match lines rest with
      | [] => [[c]]
      | line :: more => (c :: line) :: more

structure Line where
  number : Nat
  start : Nat
  text : List Char
  deriving Inhabited

def number (index start : Nat) : List (List Char) → List Line
  | [] => []
  | text :: rest => ⟨index + 1, start, text⟩ :: number (index + 1) (start + text.length) rest

def lineOf (first : Line) (rest : List Line) (offset : Nat) : Line :=
  ((rest.takeWhile fun line => line.start ≤ offset).getLast?).getD first

structure Cell where
  shown : List Char
  width : Nat

def blanks (n : Nat) : List Char := List.replicate n ' '

/-- A tab reaches to the next multiple of four characters. -/
def cell (index : Nat) (c : Char) : Cell :=
  if c = '\t' then ⟨blanks (4 - index % 4), 4 - index % 4⟩
  else if Text.isWhite c then ⟨[' '], 1⟩
  else ⟨[c], Text.cellWidth c⟩

def Line.cells (line : Line) : List Cell :=
  (line.text.reverse.dropWhile Text.isWhite).reverse.mapIdx cell

def shown (cells : List Cell) : List Char := cells.flatMap Cell.shown

def widthAt (cells : List Cell) (index : Nat) : Nat := (cells[index]?.map Cell.width).getD 1

def mark (width : Nat) (first next : Char) : List Char :=
  if width = 0 then [] else first :: List.replicate (width - 1) next

def underlineMark (middle start stop index : Nat) (width : Nat) : List Char :=
  let under := start ≤ index && index < stop
  if index = middle then if under then mark width '┬' '─' else mark width '│' ' '
  else if under then mark width '─' '─'
  else mark width ' ' ' '

def arrowMark (middle index width : Nat) : List Char :=
  if index = middle then mark width '╰' '─'
  else if middle < index then mark width '─' '─'
  else mark width ' ' ' '

structure Margin where
  width : Nat

def Margin.rule (m : Margin) (c : Char) : List Char := List.replicate (m.width + 2) c

def Margin.numbered (m : Margin) (line : Line) : List Char :=
  let digits := Decimal.digitsOf line.number
  ' ' :: blanks (m.width - digits.length) ++ digits ++ [' ', '│', ' ']

def Margin.bare (m : Margin) (c : Char) : List Char := m.rule ' ' ++ [c, ' ']

/-- One line and, under it, the marks from character `start` up to `stop` of the line. -/
def singleLine (m : Margin) (line : Line) (start stop : Nat) (description : List Char) :
    List (List Char) :=
  let cells := line.cells
  let middle := (start + stop) / 2
  let places := List.range (stop + 2)
  let underline := places.flatMap fun i => underlineMark middle start stop i (widthAt cells i)
  let arrow := places.flatMap fun i => arrowMark middle i (widthAt cells i)
  [m.numbered line ++ shown cells, m.bare '│' ++ underline,
    m.bare '│' ++ arrow ++ ' ' :: description]

/-- The first and the last line of several, with one row for all those between. -/
def severalLines (m : Margin) (first last : Line) (description : List Char) : List (List Char) :=
  let cells := last.cells
  let reach (c : Char) := (List.range (last.text.length + 2)).flatMap fun i =>
    List.replicate (widthAt cells i) c
  let between :=
    if first.number + 1 < last.number then [m.bare '┆' ++ ['┆', ' ', ' ', ' ']] else []
  [m.numbered first ++ ['╭', '─', '▶', ' '] ++ shown first.cells] ++ between ++
    [m.numbered last ++ ['├', '─', '▶', ' '] ++ shown cells,
     m.bare '│' ++ ['│', ' ', ' ', ' '] ++ reach ' ',
     m.bare '│' ++ ['╰', '─', '─', '─'] ++ reach '─' ++ ' ' :: description]

def draw (filename : String) (source : List Char) (span : Span) (description : String) :
    List (List Char) :=
  match number 0 0 (lines source) with
  | [] => []
  | line :: rest =>
    let first := lineOf line rest span.start
    let last := if span.start < span.stop then lineOf line rest (span.stop - 1) else first
    let m : Margin := ⟨(Decimal.digitsOf last.number).length⟩
    let column := span.start - first.start
    let place := filename.toList ++ ':' :: Decimal.digitsOf first.number ++
      ':' :: Decimal.digitsOf (column + 1)
    let body :=
      if first.number = last.number then
        singleLine m first column (span.stop - first.start) description.toList
      else severalLines m first last description.toList
    [m.rule ' ' ++ ['╭', '─', '['] ++ place ++ [']'], m.rule ' ' ++ ['│']] ++ body ++
      [m.rule '─' ++ ['╯']]

theorem lines_flatten (text : List Char) : (lines text).flatten = text := by
  fun_induction lines text with
  | case1 => rfl
  | case2 rest ih => simp [ih]
  | case3 c rest _ h ih => simp [ih]
  | case4 c rest _ h hnil ih => simp_all
  | case5 c rest _ h line more hcons ih => simp_all

end Excerpt

structure Severity where
  word : String
  heading : String

def Severity.warning : Severity := ⟨"Warning", "warning"⟩

def Severity.error : Severity := ⟨"Error", "syntax error"⟩

def report (severity : Severity) (filename source : String) (loc : Option Loc)
    (description : String) : String :=
  match loc with
  | none => severity.heading ++ ": " ++ description ++ "\n  --> " ++ filename ++ "\n"
  | some loc =>
    let rows := Excerpt.draw filename source.toList (loc.charSpan source) description
    severity.word ++ ": " ++ severity.heading ++ " in " ++ filename ++ "\n" ++
      String.ofList (rows.flatMap (· ++ ['\n']))

def Warning.render (w : Warning) (source : String) : String :=
  report .warning w.filename source w.loc w.description

def SyntaxError.render (e : SyntaxError) : String :=
  report .error e.filename e.source e.loc e.description

def PassError.render? : PassError → Option String
  | .failed e => some e.render
  | .unknownKind ⟨kind, none⟩ => some ("error: " ++ unknownKindText kind ++ "\n")
  | .unknownKind ⟨kind, some loc⟩ =>
    loc.start.shown?.map fun place => "error: " ++ unknownKindText kind ++ " at " ++ place ++ "\n"

end SyntaxWalk
