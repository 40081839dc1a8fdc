/-!
# Configuration
-/

namespace Contracts

structure Config where
  /-- The path of names under which scripts find the checker. -/
  checker : String
  /-- The member of the checker that wraps functions; without one the checker itself is called. -/
  checkMethod : Option String
  /-- The property in which a wrapped declaration keeps its checked function. -/
  cacheProperty : String
  /-- Whether a malformed directive fails the whole file. -/
  strictDirectives : Bool
  /-- Whether a source map document is made. -/
  sourceMap : Bool
  deriving DecidableEq, Repr

def Config.default : Config :=
  ⟨"global.__typify", none, "__typify__", false, false⟩

end Contracts
