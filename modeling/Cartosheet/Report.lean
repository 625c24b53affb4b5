import Cartosheet.Document
import Cartosheet.Stylesheet

namespace Cartosheet

namespace Report

inductive Format where
  | text
  | json
  deriving DecidableEq, Repr

/-- A declaration in cascade order. -/
structure DeclarationRecord where
  selector : String
  property : String
  family : String
  value : String
  important : Bool
  specificity : Specificity
  position : Position
  deriving DecidableEq, Repr

/-- An entry of a block. -/
structure EntryRecord where
  property : String
  value : String
  important : Bool
  position : Position
  deriving DecidableEq, Repr

/-- Selectors and their block as written. -/
structure RulesetRecord where
  selectors : List String
  entries : List EntryRecord
  deriving DecidableEq, Repr

def DeclarationRecord.ofDeclaration (d : Declaration) : DeclarationRecord :=
  ⟨d.selector.text, d.property.name, d.property.family, d.value.text, d.important,
    d.selector.specificity, d.position⟩

def EntryRecord.ofEntry (e : Entry) : EntryRecord :=
  ⟨e.property.name, e.value.text, e.important, e.position⟩

def RulesetRecord.ofRuleset (r : Ruleset) : RulesetRecord :=
  ⟨r.selectors.map Selector.text, r.entries.map EntryRecord.ofEntry⟩

end Report

inductive Report where
  | declarations (records : List Report.DeclarationRecord)
  | rulesets (records : List Report.RulesetRecord)
  deriving DecidableEq, Repr

namespace Report

def ofDeclarations (ds : List Declaration) : Report :=
  declarations (ds.map DeclarationRecord.ofDeclaration)

def ofRulesets (rs : List Ruleset) : Report :=
  rulesets (rs.map RulesetRecord.ofRuleset)

/-- The report on a stylesheet with the standard properties. -/
def ofSource (mercator byRuleset : Bool) (source : String) : Except Fault Report :=
  let σ := Settings.standard mercator
  if byRuleset then (Stylesheet.rulesets σ source).map ofRulesets
  else (Stylesheet.declarations σ source).map ofDeclarations

def size : Report → Nat
  | declarations records => records.length
  | rulesets records => records.length

def importantMark (important : Bool) : String :=
  if important then " !important" else ""

def DeclarationRecord.line (r : DeclarationRecord) : String :=
  r.selector ++ " \x7b " ++ r.property ++ ": " ++ r.value ++ importantMark r.important
    ++ "; \x7d /* " ++ r.specificity.text ++ " " ++ r.position.text ++ " */\n"

def EntryRecord.line (r : EntryRecord) : String :=
  "    " ++ r.property ++ ": " ++ r.value ++ importantMark r.important ++ ";\n"

def RulesetRecord.lines (r : RulesetRecord) : String :=
  ", ".intercalate r.selectors ++ " \x7b\n" ++ String.join (r.entries.map EntryRecord.line)
    ++ "\x7d\n"

def text : Report → String
  | declarations records => String.join (records.map DeclarationRecord.line)
  | rulesets records => String.join (records.map RulesetRecord.lines)

def DeclarationRecord.document (r : DeclarationRecord) : Document :=
  .object
    [("selector", .string r.selector),
     ("property", .string r.property),
     ("group", .string r.family),
     ("value", .string r.value),
     ("important", .boolean r.important),
     ("specificity",
       .array
         [.number r.specificity.ids, .number r.specificity.names, .number r.specificity.tests]),
     ("line", .number r.position.line),
     ("column", .number r.position.column)]

def EntryRecord.document (r : EntryRecord) : Document :=
  .object
    [("property", .string r.property),
     ("value", .string r.value),
     ("important", .boolean r.important),
     ("line", .number r.position.line),
     ("column", .number r.position.column)]

def RulesetRecord.document (r : RulesetRecord) : Document :=
  .object
    [("selectors", .array (r.selectors.map .string)),
     ("declarations", .array (r.entries.map EntryRecord.document))]

def document : Report → Document
  | declarations records =>
    .object [("declarations", .array (records.map DeclarationRecord.document))]
  | rulesets records => .object [("rulesets", .array (records.map RulesetRecord.document))]

def render (r : Report) : Format → String
  | .text => r.text
  | .json => r.document.text ++ "\n"

end Report

end Cartosheet
