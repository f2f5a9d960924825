import Reckon.Token
import Reckon.Tree

/-! What could have stood where the grammar was left. -/

namespace Reckon

inductive Expectation where
  | production (production : Production)
  | token (kind : TokenKind)
  | typeOrEquals
  | equalsOrParameters
  | distinctArgument
  | endOfStatement
  | validToken
deriving DecidableEq, Repr

namespace Expectation

def description : Expectation → String
  | .production tree => tree.name
  | .token kind => kind.description
  | .typeOrEquals => "type name or `=`"
  | .equalsOrParameters => "`=` or `(`"
  | .distinctArgument => "distinct argument name"
  | .endOfStatement => "end of statement"
  | .validToken => "valid token"

end Expectation

end Reckon
