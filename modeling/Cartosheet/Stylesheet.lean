import Cartosheet.Property.Standard
import Cartosheet.Ruleset.Reader
import Cartosheet.Style
import Cartosheet.Token.Scan

namespace Cartosheet

/-- The standard properties under a projection. -/
def Settings.standard (mercator : Bool) : Settings := ⟨.standard, mercator⟩

namespace Stylesheet

def rulesets (σ : Settings) (source : String) : Except Fault (List Ruleset) :=
  Ruleset.ofTokens σ (Token.scan source)

def declarations (σ : Settings) (source : String) : Except Fault (List Declaration) :=
  Declaration.ofTokens σ (Token.scan source)

end Stylesheet

end Cartosheet
