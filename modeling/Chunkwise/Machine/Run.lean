import Chunkwise.Machine.Eval

/-!
Calls nest at most as deep as the environment allows, so calling is defined by recursion on the
number of levels left. A run from depth zero with one level to spare never uses them up.
-/
namespace Chunkwise.Machine

/-- A frame whose first locals are the arguments. -/
def frameOf (code : Code) (thisObject : Option ObjectRef) (args : List Value) : Frame :=
  let size := max code.locals args.length
  ⟨(args ++ List.replicate (size - args.length) Value.null).toArray, thisObject, none⟩

/-- The value of a body; falling off its end yields null. -/
def resultOf : Flow → Value
  | .returned v => v
  | _ => .null

def runBody (env : Env) (limit : Nat) (calls : Calls) (m : Method) (thisObject : Option ObjectRef)
    (args : List Value) : Run Value := do
  match m.body with
  | .code code =>
    let flow ← Run.inFrame (frameOf code thisObject args) (execAll env calls limit code.body)
    return resultOf flow
  | .native n => native env.image n args
  | .abstractMember | .missing => Run.internal (.noBody m.signature)

def defaultFields (im : Image) (d : TypeDef) : Array Value :=
  (d.fields.map fun f => im.defaultValue f.type).toArray

def newObject (env : Env) (type : Path) (d : TypeDef) : Run ObjectRef := fun s =>
  let (id, store) := s.store.addObject type (defaultFields env.image d)
  (.ok ⟨type, id⟩, { s with store })

/-- Sets the fields that have initial values, in source order. -/
def initFields (env : Env) (calls : Calls) (o : ObjectRef) : List (Nat × BoundExpr) → Run Unit
  | [] => return ()
  | (i, e) :: rest => do
    save (.field o i) (← eval env calls e)
    initFields env calls o rest

/-- Field initializers run in a frame of their own before the constructor. -/
def build (env : Env) (calls : Calls) (type : Path) (constructor : Option Nat)
    (args : List Value) : Run Value := do
  match env.image.typeDef? type with
  | none => Run.internal .unknownType
  | some d =>
    let o ← newObject env type d
    Run.inFrame (Frame.ofSize 0 (some o)) (initFields env calls o d.inits)
    match constructor.bind fun i => d.constructors[i]? with
    | some c =>
      let _ ← calls.invoke c (some o) args
      return o.value
    | none => return o.value

mutual

/-- Calls a method with `room` levels left. -/
def invoke (env : Env) (limit : Nat) :
    (room : Nat) → Method → Option ObjectRef → List Value → Run Value
  | 0, _, _, _ => Run.stop .unfinished
  | room + 1, m, thisObject, args =>
    Run.deeper env
      (runBody env limit ⟨invoke env limit room, create env limit room⟩ m thisObject args)

/-- Creates an object with `room` levels left. -/
def create (env : Env) (limit : Nat) :
    (room : Nat) → Path → Option Nat → List Value → Run Value
  | 0, _, _, _ => Run.stop .unfinished
  | room + 1, type, constructor, args =>
    Run.deeper env
      (build env ⟨invoke env limit room, create env limit room⟩ type constructor args)

end

/-- The calls of code that runs at depth zero. -/
def topCalls (env : Env) (limit : Nat) : Calls :=
  ⟨invoke env limit (env.maxDepth + 1), create env limit (env.maxDepth + 1)⟩

/-- How a run ended and what it left behind. -/
structure Outcome where
  result : Except Stop (Option Value)
  store : Store
  out : String
  polls : Nat

/-- Runs the code of a unit; its result is the captured value, if there is one. -/
def run (env : Env) (limit : Nat) (store : Store) (code : Code) : Outcome :=
  let (r, s) := execAll env (topCalls env limit) limit code.body
    ⟨store, "", Frame.ofSize code.locals none, 0, 0⟩
  ⟨r.map fun _ => s.frame.result, s.store, s.out, s.polls⟩

end Chunkwise.Machine
