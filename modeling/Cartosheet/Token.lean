import Cartosheet.Position

namespace Cartosheet

inductive TokenKind where
  | identifier
  | hash
  | string
  | number
  | uri
  | character
  | whitespace
  | comment
  /-- Anything that no stylesheet may hold: a dimension, a call, a broken string. -/
  | other
  deriving DecidableEq, Repr

/-- The word for a kind in a message. -/
def TokenKind.word : TokenKind → String
  | identifier => "identifier"
  | hash => "hash"
  | string => "string"
  | number => "number"
  | uri => "URI"
  | character => "character"
  | whitespace => "whitespace"
  | comment => "comment"
  | other => "token"

structure Token where
  kind : TokenKind
  text : String
  position : Position
  deriving DecidableEq, Repr

namespace Token

/-- Whitespace and comments, which most contexts pass over. -/
def isTransparent (t : Token) : Bool :=
  t.kind = .whitespace || t.kind = .comment

def isComment (t : Token) : Bool := t.kind = .comment

/-- The token is the single character `c`. -/
def isChar (t : Token) (c : Char) : Bool :=
  t.kind = .character && t.text = String.singleton c

/-- The token is the identifier `word`. -/
def isWord (t : Token) (word : String) : Bool :=
  t.kind = .identifier && t.text = word

/-- How a message names a token: its kind and its quoted text. -/
def describe (t : Token) : String :=
  t.kind.word ++ " \"" ++ t.text ++ "\""

end Token

end Cartosheet
