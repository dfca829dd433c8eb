import Chunkwise.Machine.Operation
import Chunkwise.Image.Builtin

/-!
Expressions and statements are evaluated by recursion on the code. Calls are handed to the caller
through `Calls`, and the rounds of each loop are bounded by `limit`; a loop that reaches the bound
stops as unfinished, never as anything else.
-/
namespace Chunkwise.Machine

/-- How to call a method and how to create an object. -/
structure Calls where
  invoke : Method → Option ObjectRef → List Value → Run Value
  create : Path → Option Nat → List Value → Run Value

/-- A place whose object has been evaluated. -/
inductive Location where
  | frame (index : Nat)
  | static (slot : Nat)
  | field (object : ObjectRef) (index : Nat)
  deriving DecidableEq, Repr

def load (l : Location) : Run Value := Run.gets fun s =>
  match l with
  | .frame i => (s.frame.locals[i]?).getD .null
  | .static slot => s.store.readSlot slot
  | .field o i => s.store.readField o.id i

def save (l : Location) (v : Value) : Run Unit := Run.modify fun s =>
  match l with
  | .frame i => { s with frame := { s.frame with locals := s.frame.locals.modify i fun _ => v } }
  | .static slot => { s with store := s.store.writeSlot slot v }
  | .field o i => { s with store := s.store.writeField o.id i v }

/-- The method that a reference means. -/
def method? (im : Image) : MethodRef → Option Method
  | .member type index => (im.typeDef? type).bind fun d => d.methods[index]?
  | .helper index => Builtin.helpers[index]?

def findMethod (env : Env) (ref : MethodRef) : Run Method :=
  match method? env.image ref with
  | some m => return m
  | none => Run.internal .unknownMethod

/-- The method of the object's own type behind an interface member. -/
def findImplementation (env : Env) (o : ObjectRef) (wanted : Method) : Run Method :=
  match (env.image.typeDef? o.type).bind fun d => d.implementation? wanted with
  | some m => return m
  | none => Run.internal (.notImplemented o.type wanted.signature)

mutual

def eval (env : Env) (calls : Calls) : BoundExpr → Run Value
  | .const v => return v
  | .load place => do load (← locate env calls place)
  | .thisRef => Run.gets fun s =>
    match s.frame.thisObject with
    | some o => o.value
    | none => .null
  | .assign place e => do
    let l ← locate env calls place
    let v ← eval env calls e
    save l v
    return v
  | .compound place op e => do
    let l ← locate env calls place
    let old ← load l
    let v ← eval env calls e
    let new ← Run.ofExcept (apply env.image op old v)
    save l new
    return new
  | .step place op leading kind => do
    let l ← locate env calls place
    let old ← load l
    let new ← Run.ofExcept (stepValue kind op old)
    save l new
    return if leading then new else old
  | .neg kind e => do Run.ofExcept (negate kind (← eval env calls e))
  | .not e => do return .bool (!(← eval env calls e).holds)
  | .binary op l r => do
    let a ← eval env calls l
    let b ← eval env calls r
    Run.ofExcept (apply env.image op a b)
  | .both l r => do
    if (← eval env calls l).holds then return .bool (← eval env calls r).holds
    else return .bool false
  | .either l r => do
    if (← eval env calls l).holds then return .bool true
    else return .bool (← eval env calls r).holds
  | .coalesce l r => do
    let a ← eval env calls l
    if a.isNull then eval env calls r
    else return a
  | .cond test yes no => do
    if (← eval env calls test).holds then eval env calls yes
    else eval env calls no
  | .callStatic ref args => do
    let vs ← evalAll env calls args
    calls.invoke (← findMethod env ref) none vs
  | .callDirect target ref args => do
    let o ← Run.ofExcept (receiver (← eval env calls target))
    let vs ← evalAll env calls args
    calls.invoke (← findMethod env ref) (some o) vs
  | .callVirtual target ref args => do
    let o ← Run.ofExcept (receiver (← eval env calls target))
    let vs ← evalAll env calls args
    let m ← findImplementation env o (← findMethod env ref)
    calls.invoke m (some o) vs
  | .new type constructor args => do
    let vs ← evalAll env calls args
    calls.create type constructor vs
  | .toText e => do Run.ofExcept (toText env.image (← eval env calls e))
  | .textLength e => do Run.ofExcept (textLength (← eval env calls e))
  | .widen e => do return widen (← eval env calls e)

def evalAll (env : Env) (calls : Calls) : List BoundExpr → Run (List Value)
  | [] => return []
  | e :: es => do
    let v ← eval env calls e
    let vs ← evalAll env calls es
    return v :: vs

def locate (env : Env) (calls : Calls) : Place → Run Location
  | .frame i => return .frame i
  | .static slot => return .static slot
  | .field target i => do
    let o ← Run.ofExcept (receiver (← eval env calls target))
    return .field o i

end

/-- Where control goes after a statement. -/
inductive Flow where
  | next
  | out
  | again
  | returned (value : Value)
  deriving DecidableEq

/-- Repeats a round until it says how the loop ends, at most `limit` times. -/
def rounds (round : Run (Option Flow)) : (limit : Nat) → Run Flow
  | 0 => Run.stop .unfinished
  | limit + 1 => do
    match ← round with
    | some flow => return flow
    | none => rounds round limit

/-- How the body of a loop ends the loop, if it does. -/
def Flow.leaves : Flow → Option Flow
  | .out => some .next
  | .returned v => some (.returned v)
  | .next | .again => none

/-- Whether a condition holds; one that was left out does. -/
def test (env : Env) (calls : Calls) : Option BoundExpr → Run Bool
  | none => return true
  | some e => do return (← eval env calls e).holds

mutual

def exec (env : Env) (calls : Calls) (limit : Nat) : BoundStmt → Run Flow
  | .expr e => do
    Run.poll env
    let _ ← eval env calls e
    return .next
  | .capture e => do
    Run.poll env
    let v ← eval env calls e
    Run.modify fun s => { s with frame := { s.frame with result := some v } }
    return .next
  | .block body => do
    Run.poll env
    execAll env calls limit body
  | .ifElse c yes none => do
    Run.poll env
    if (← eval env calls c).holds then exec env calls limit yes
    else return .next
  | .ifElse c yes (some no) => do
    Run.poll env
    if (← eval env calls c).holds then exec env calls limit yes
    else exec env calls limit no
  | .whileDo c body => do
    Run.poll env
    rounds (do
      Run.poll env
      if (← eval env calls c).holds then return (← exec env calls limit body).leaves
      else return some .next) limit
  | .doWhile body c => do
    Run.poll env
    rounds (do
      Run.poll env
      match (← exec env calls limit body).leaves with
      | some flow => return some flow
      | none =>
        if (← eval env calls c).holds then return none
        else return some .next) limit
  | .forLoop init c update body => do
    Run.poll env
    execEach env calls limit init
    rounds (do
      Run.poll env
      if ← test env calls c then
        match (← exec env calls limit body).leaves with
        | some flow => return some flow
        | none =>
          let _ ← evalAll env calls update
          return none
      else return some .next) limit
  | .breakLoop => do
    Run.poll env
    return .out
  | .continueLoop => do
    Run.poll env
    return .again
  | .returnValue none => do
    Run.poll env
    return .returned .null
  | .returnValue (some e) => do
    Run.poll env
    return .returned (← eval env calls e)
  | .throwValue e => do
    Run.poll env
    Run.fault (.thrown (← eval env calls e))

/-- Runs statements in order until one does not go on to the next. -/
def execAll (env : Env) (calls : Calls) (limit : Nat) : List BoundStmt → Run Flow
  | [] => return .next
  | s :: rest => do
    match ← exec env calls limit s with
    | .next => execAll env calls limit rest
    | flow => return flow

/-- Runs statements in order, whatever way each of them ends. -/
def execEach (env : Env) (calls : Calls) (limit : Nat) : List BoundStmt → Run Unit
  | [] => return ()
  | s :: rest => do
    let _ ← exec env calls limit s
    execEach env calls limit rest

end

end Chunkwise.Machine
