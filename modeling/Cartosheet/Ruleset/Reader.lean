import Cartosheet.Declaration.Reader

namespace Cartosheet.Ruleset

/-- How far a declaration has come after its colon. -/
inductive Marker where
  | none
  | bang
  | important
  deriving DecidableEq, Repr

/-- A declaration that is being read. -/
inductive Draft where
  /-- Its name has been read, its colon has not. -/
  | named (name : Token)
  | valued (name : Token) (property : Property) (value : List Token) (marker : Marker)
  deriving DecidableEq, Repr

inductive Context where
  | betweenRules
  /-- Among selectors: those read, and the tokens of the next one, without comments. -/
  | inSelectors (selectors : List Selector) (run : List Token)
  | inBlock (selectors : List Selector) (entries : List Entry)
  | inDeclaration (selectors : List Selector) (entries : List Entry) (draft : Draft)
  deriving DecidableEq, Repr

/-- The rulesets that are complete, and where the machine is in the next one. -/
structure Machine where
  done : List Ruleset
  context : Context
  deriving DecidableEq, Repr

namespace Context

/-- Where the tokens end if they end here. -/
def place : Context → Place
  | betweenRules => .beforeSelector
  | inSelectors _ _ => .insideSelector
  | inBlock _ _ => .insideBlock
  | inDeclaration _ _ _ => .insideDeclaration

end Context

/-- A selector can begin with this token. -/
def startsSelector (t : Token) : Bool :=
  t.kind = .identifier || t.kind = .hash || t.isChar '*' || t.isChar '.' || t.isChar '['

namespace Draft

/-- The draft, or the entry it became, after a token that is not transparent. -/
def feed (σ : Settings) (d : Draft) (t : Token) : Except Fault (Draft ⊕ Entry) :=
  match d with
  | named name =>
    if t.isChar ':' then
      match σ.registry.find? name.text with
      | some p => .ok (.inl (valued name p [] .none))
      | none => .error (.unknownProperty name.text name.position)
    else .error (.unexpected t .beforeColon)
  | valued name p value .none =>
    if t.isChar ';' then (Entry.build p name value false).map .inr
    else if t.isChar '!' then .ok (.inl (valued name p value .bang))
    else if t.isChar '{' || t.isChar '}' then .error (.unexpected t .declarationValue)
    else .ok (.inl (valued name p (value ++ [t]) .none))
  | valued name p value .bang =>
    if t.isWord "important" then .ok (.inl (valued name p value .important))
    else .error (.unexpected t .afterBang)
  | valued name p value .important =>
    if t.isChar ';' then (Entry.build p name value true).map .inr
    else .error (.unexpected t .afterImportant)

end Draft

namespace Machine

def start : Machine := ⟨[], .betweenRules⟩

def feed (σ : Settings) (m : Machine) (t : Token) : Except Fault Machine :=
  match m.context with
  | .betweenRules =>
    if t.isTransparent then .ok m
    else if startsSelector t then .ok { m with context := .inSelectors [] [t] }
    else .error (.unexpected t .beforeSelector)
  | .inSelectors selectors run =>
    if Selector.isTerminator t then
      match Selector.ofTokens σ.mercator run t.position with
      | .error f => .error f
      | .ok s =>
        if t.isChar '{' then .ok { m with context := .inBlock (selectors ++ [s]) [] }
        else .ok { m with context := .inSelectors (selectors ++ [s]) [] }
    else if t.isComment then .ok m
    else .ok { m with context := .inSelectors selectors (run ++ [t]) }
  | .inBlock selectors entries =>
    if t.isTransparent then .ok m
    else if t.isChar '}' then .ok ⟨m.done ++ [⟨selectors, entries⟩], .betweenRules⟩
    else if t.kind = .identifier then
      .ok { m with context := .inDeclaration selectors entries (.named t) }
    else .error (.unexpected t .beforeProperty)
  | .inDeclaration selectors entries draft =>
    if t.isTransparent then .ok m
    else
      match draft.feed σ t with
      | .error f => .error f
      | .ok (.inl d) => .ok { m with context := .inDeclaration selectors entries d }
      | .ok (.inr e) => .ok { m with context := .inBlock selectors (entries ++ [e]) }

/-- Feeds tokens in order, up to the first fault. -/
def feedAll (σ : Settings) (m : Machine) : List Token → Except Fault Machine
  | [] => .ok m
  | t :: ts =>
    match m.feed σ t with
    | .error f => .error f
    | .ok m' => m'.feedAll σ ts

/-- The rulesets, if the tokens end between two of them. -/
def finish (m : Machine) (last : Position) : Except Fault (List Ruleset) :=
  match m.context with
  | .betweenRules => .ok m.done
  | context => .error (.unexpectedEnd context.place last)

end Machine

/-- The position of the last token, or the start if there is none. -/
def lastPosition (tokens : List Token) : Position :=
  (tokens.getLast?.map Token.position).getD .start

/-- The rulesets of a token list in source order. -/
def ofTokens (σ : Settings) (tokens : List Token) : Except Fault (List Ruleset) :=
  match Machine.start.feedAll σ tokens with
  | .error f => .error f
  | .ok m => m.finish (lastPosition tokens)

end Cartosheet.Ruleset
