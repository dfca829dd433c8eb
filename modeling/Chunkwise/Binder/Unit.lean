import Chunkwise.Binder.Bodies
import Chunkwise.Binder.Host

namespace Chunkwise.Bind

variable [NameLookup]

/-- Gives up once there are errors. -/
def stopOnErrors : Bind Unit := do
  if ← hasErrors then Attempt.fail

def statementUnit (unit : StatementUnit) : Bind Code := do
  setBody .host
  let code ← hostStmts unit.stmts
  stopOnErrors
  return ⟨code, (← body).scopes.slotCount⟩

/-- Binds a chunk of declarations. Each stage starts only when the stage before found no problem. -/
def declarationUnit (unit : DeclarationUnit) : Bind Code := do
  let declared ← declareMembers [] unit.members
  stopOnErrors
  bindUsings unit.usings
  let populated ← populateTypes declared
  stopOnErrors
  let code ← bindAllBodies populated
  stopOnErrors
  return ⟨code, 0⟩

end Chunkwise.Bind
