import SyntaxWalk.Text.Offset

/-!
# Source locations

Positions name a point of a source text the way a JavaScript parser does: the line counts from one,
the column and the optional offset count UTF-16 units from zero. `Position.offsetIn` finds the byte
meant, whatever the numbers are.
-/

namespace SyntaxWalk

structure Position where
  line : UInt64
  column : UInt64
  offset : Option UInt64 := none
  deriving DecidableEq, Inhabited

/-- An explicit offset wins over line and column. Line zero is read as line one, a line after the
last gives the end of the text, and a column stops at the end of its line. -/
def Position.offsetIn (p : Position) (source : String) : Nat :=
  let text := source.toList
  match p.offset with
  | some offset => Text.bytesOfUnits text offset.toNat
  | none =>
    match Text.afterLines (p.line.toNat - 1) text with
    | none => Text.byteLength text
    | some (start, rest) => start + Text.bytesOfUnits (rest.takeWhile (· ≠ '\n')) p.column.toNat

structure Loc where
  start : Position
  stop : Position
  deriving DecidableEq, Inhabited

def Loc.onLine (line start stop : UInt64) : Loc := ⟨⟨line, start, none⟩, ⟨line, stop, none⟩⟩

structure Span where
  start : Nat
  stop : Nat
  deriving DecidableEq

def Loc.byteSpan (l : Loc) (source : String) : Span :=
  let start := l.start.offsetIn source
  ⟨start, max (l.stop.offsetIn source) start⟩

def Loc.charSpan (l : Loc) (source : String) : Span :=
  let bytes := l.byteSpan source
  ⟨Text.charsOfBytes source.toList bytes.start, Text.charsOfBytes source.toList bytes.stop⟩

theorem Loc.byteSpan_start_le_stop (l : Loc) (source : String) :
    (l.byteSpan source).start ≤ (l.byteSpan source).stop := Nat.le_max_right _ _

end SyntaxWalk
