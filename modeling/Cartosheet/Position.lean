namespace Cartosheet

/-- Lines and columns count from one; a column counts UTF-16 code units. -/
structure Position where
  line : Nat
  column : Nat
  deriving DecidableEq, Repr

/-- LF, CR and FF; a CRLF pair is one line break made of two such characters. -/
def isNewline (c : Char) : Bool :=
  c = '\n' || c = '\r' || c = '\x0c'

/-- The characters of the line break that `cs` starts with, none if it starts otherwise. -/
def lineBreak : List Char → List Char
  | [] => []
  | c :: cs =>
    if c = '\r' && cs.head? = some '\n' then ['\r', '\n']
    else if isNewline c then [c]
    else []

/-- UTF-16 code units of one character. -/
def codeUnits (c : Char) : Nat :=
  if c.toNat < 0x10000 then 1 else 2

namespace Position

def start : Position := ⟨1, 1⟩

def compare (p q : Position) : Ordering :=
  (Ord.compare p.line q.line).then (Ord.compare p.column q.column)

def nextLine (p : Position) : Position := ⟨p.line + 1, 1⟩

/-- The position after reading the given characters from `p`. -/
def advance (p : Position) : List Char → Position
  | [] => p
  | c :: cs =>
    -- the CR of a CRLF pair leaves the line break to the LF
    if c = '\r' && cs.head? = some '\n' then p.advance cs
    else if isNewline c then p.nextLine.advance cs
    else (⟨p.line, p.column + codeUnits c⟩ : Position).advance cs

def text (p : Position) : String :=
  "line " ++ toString p.line ++ ", column " ++ toString p.column

@[simp] theorem advance_nil (p : Position) : p.advance [] = p := rfl

end Position

end Cartosheet
