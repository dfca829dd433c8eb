import Chunkwise.Program.Code

/-!
Whether control can fall off the end of bound statements. Conditions count only when they are the
literal `true`.
-/
namespace Chunkwise

def BoundExpr.isTrue : BoundExpr → Bool
  | .const (.bool b) => b
  | _ => false

/-- Where a loop's own body may jump to. -/
inductive Jump where
  | out
  | again
  deriving DecidableEq, Repr

namespace BoundStmt

mutual

/-- Whether a statement holds a jump of the loop of which it is the body. Jumps inside a nested loop
belong to that loop. -/
def jumps (j : Jump) : BoundStmt → Bool
  | breakLoop => j == .out
  | continueLoop => j == .again
  | block body => anyJumps j body
  | ifElse _ yes none => yes.jumps j
  | ifElse _ yes (some no) => yes.jumps j || no.jumps j
  | _ => false

def anyJumps (j : Jump) : List BoundStmt → Bool
  | [] => false
  | s :: rest => s.jumps j || anyJumps j rest

end

def breaks (s : BoundStmt) : Bool := s.jumps .out

def continues (s : BoundStmt) : Bool := s.jumps .again

mutual

/-- Whether control can reach the end of a statement. -/
def completes : BoundStmt → Bool
  | returnValue _ | throwValue _ | breakLoop | continueLoop => false
  | block body => allComplete body
  | ifElse _ yes (some no) => yes.completes || no.completes
  | whileDo test body => !test.isTrue || body.breaks
  | forLoop _ (some test) _ body => !test.isTrue || body.breaks
  | forLoop _ none _ body => body.breaks
  | doWhile body test => body.breaks || (!test.isTrue && (body.completes || body.continues))
  | _ => true

def allComplete : List BoundStmt → Bool
  | [] => true
  | s :: rest => s.completes && allComplete rest

end

end BoundStmt

end Chunkwise
