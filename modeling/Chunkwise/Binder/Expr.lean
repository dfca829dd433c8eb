import Chunkwise.Binder.Member
import Chunkwise.Binder.Conversion

/-!
`resolve` finds what an expression denotes and is the only recursion here. All else takes a
denotation and asks more of it: that it is a value, that it converts to a type, that it can be
assigned.
-/
namespace Chunkwise.Bind

variable [NameLookup]

def demand (span : Span) : Resolved → Bind Typed
  | .value e t => return ⟨e, t⟩
  | .place p t _ => return ⟨.load p, t⟩
  | .type path => refuse (.typeAsValue (Path.text path)) span
  | .space path => refuse (.namespaceAsValue (Path.text path)) span
  | .methods group => refuse (.methodAsValue group.name) span

def demandValue (span : Span) (r : Resolved) : Bind Typed := do
  let v ← demand span r
  if v.type = .void then refuse .voidValue span
  else return v

/-- Converts implicitly; an integer that becomes a double is widened when it runs. -/
def coerce (e : BoundExpr) (source target : Ty) (span : Span) : Bind BoundExpr := do
  if source = target then return e
  else if source.isIntegral && target == .double then return .widen e
  else if (← image).isAssignable source target then return e
  else refuse (.noConversion source.text target.text) span

def demandType (target : Ty) (span : Span) (r : Resolved) : Bind BoundExpr := do
  let v ← demandValue span r
  coerce v.expr v.type target span

/-- A location that may be assigned. -/
def demandPlace (span : Span) : Resolved → Bind (Place × Ty)
  | .place p t isReadonly =>
    if isReadonly then refuse .readonlyTarget span else return (p, t)
  | _ => refuse .notATarget span

def literal (n : Int64) : Typed := ⟨.const (.int n), Ty.ofLiteral n⟩

def stepped (span : Span) (op : StepOp) (leading : Bool) (p : Place) (t : Ty) : Bind Typed :=
  if t.isNumeric then return ⟨.step p op leading t.numKind, t⟩
  else refuse (.badOperand op.text t.text) span

def unary (span : Span) (op : UnaryOp) (v : Typed) : Bind Typed :=
  match op with
  | .neg =>
    if v.type.isNumeric then return ⟨.neg v.type.numKind v.expr, v.type⟩
    else refuse (.badOperand op.text v.type.text) span
  | .plus =>
    if v.type.isNumeric then return v
    else refuse (.badOperand op.text v.type.text) span
  | .not =>
    if v.type = .bool then return ⟨.not v.expr, .bool⟩
    else refuse (.badOperand op.text v.type.text) span

/-- Both operands converted to their common numeric type. -/
def widened (l r : Typed) (ls rs : Span) : Bind (BoundExpr × BoundExpr) := do
  let common := l.type.wider r.type
  let le ← coerce l.expr l.type common ls
  let re ← coerce r.expr r.type common rs
  return (le, re)

/-- The type to which both operands convert, the left one's first. -/
def commonType? (im : Image) (l r : Ty) : Option Ty :=
  if im.isAssignable r l then some l
  else if im.isAssignable l r then some r
  else none

def coalesced (span : Span) (l r : Typed) (ls rs : Span) : Bind Typed := do
  let im ← image
  match if im.isNullable l.type then commonType? im l.type r.type else none with
  | some t =>
    let le ← coerce l.expr l.type t ls
    let re ← coerce r.expr r.type t rs
    return ⟨.coalesce le re, t⟩
  | none => refuse (.badOperands BinaryOp.coalesce.text l.type.text r.type.text) span

def compared (span : Span) (op : BinaryOp) (how : ValueOp) (l r : Typed) (ls rs : Span) :
    Bind Typed := do
  if l.type.isNumeric && r.type.isNumeric then
    let (le, re) ← widened l r ls rs
    return ⟨.binary how le re, .bool⟩
  else if (← image).isComparable l.type r.type then return ⟨.binary how l.expr r.expr, .bool⟩
  else refuse (.badOperands op.text l.type.text r.type.text) span

def ordered (span : Span) (op : BinaryOp) (how : CompareOp) (l r : Typed) (ls rs : Span) :
    Bind Typed := do
  if l.type.isNumeric && r.type.isNumeric then
    let (le, re) ← widened l r ls rs
    return ⟨.binary (.compare how (l.type.wider r.type).numKind) le re, .bool⟩
  else refuse (.badOperands op.text l.type.text r.type.text) span

def calculated (span : Span) (op : ArithOp) (l r : Typed) (ls rs : Span) : Bind Typed := do
  if op = .add ∧ (l.type = .string ∨ r.type = .string) then
    return ⟨.binary .concat l.expr r.expr, .string⟩
  else if l.type.isNumeric && r.type.isNumeric then
    let common := l.type.wider r.type
    let (le, re) ← widened l r ls rs
    return ⟨.binary (.arith op common.numKind) le re, common⟩
  else refuse (.badOperands op.text l.type.text r.type.text) span

/-- An operator that evaluates both operands. -/
def strict (span : Span) (op : BinaryOp) (l r : Typed) (ls rs : Span) : Bind Typed :=
  match op with
  | .coalesce => coalesced span l r ls rs
  | .eq => compared span op .equal l r ls rs
  | .ne => compared span op .notEqual l r ls rs
  | .lt => ordered span op .lt l r ls rs
  | .le => ordered span op .le l r ls rs
  | .gt => ordered span op .gt l r ls rs
  | .ge => ordered span op .ge l r ls rs
  | .add => calculated span .add l r ls rs
  | .sub => calculated span .sub l r ls rs
  | .mul => calculated span .mul l r ls rs
  | .div => calculated span .div l r ls rs
  | .rem => calculated span .rem l r ls rs
  | .or | .and => Attempt.fail

/-- An assignment with an operator; the operation has the type of the location. -/
def compound (span : Span) (op : ArithOp) (p : Place) (t : Ty) (v : Typed) (vs : Span) :
    Bind Typed := do
  if op = .add ∧ t = .string then return ⟨.compound p .concat v.expr, t⟩
  else if t.isNumeric && v.type.isNumeric then
    let e ← coerce v.expr v.type t vs
    return ⟨.compound p (.arith op t.numKind) e, t⟩
  else refuse (.badOperands (AssignOp.text (some op)) t.text v.type.text) span

def conditional (span : Span) (test : BoundExpr) (l r : Typed) (ls rs : Span) : Bind Typed := do
  match commonType? (← image) l.type r.type with
  | some t =>
    let le ← coerce l.expr l.type t ls
    let re ← coerce r.expr r.type t rs
    return ⟨.cond test le re, t⟩
  | none => refuse (.noCommonType l.type.text r.type.text) span

/-- Chooses the method that a call means, or says why there is none. -/
def chooseOverload {α : Type} (name : String) (candidates : List (α × Method)) (args : List Arg)
    (span : Span) : Bind (α × Method) := do
  let types := args.map Arg.type
  match (← image).selectOverload candidates types with
  | .ok c => return c
  | .error .arity => refuse (.noOverloadTakes name args.length) span
  | .error .types =>
    refuse (.noOverloadAccepts name (", ".intercalate (types.map Ty.text))) span

/-- Converts the arguments to the types of the parameters. -/
def convertArgs (m : Method) (args : List Arg) : Bind (List BoundExpr) := do
  let converted ← Attempt.forAll (fun (p : Ty × Arg) => coerce p.2.expr p.2.type p.1 p.2.span)
    (m.paramTypes.zip args)
  Attempt.ofOption (Attempt.allSome converted)

def callText (receiver : Option BoundExpr) (args : List Arg) (span : Span) : Bind Typed := do
  if args.isEmpty then
    let target ← Attempt.ofOption receiver
    return ⟨.toText target, .string⟩
  else refuse (.noOverloadTakes "ToString" args.length) span

def call (group : MethodGroup) (args : List Arg) (span : Span) : Bind Typed := do
  if group.dispatch = .toText then callText group.receiver args span
  else
    let (ref, m) ← chooseOverload group.name group.candidates args span
    let converted ← convertArgs m args
    if group.dispatch = .virtual then
      let target ← Attempt.ofOption group.receiver
      return ⟨.callVirtual target ref converted, m.returns⟩
    else if m.isStatic then return ⟨.callStatic ref converted, m.returns⟩
    else match group.receiver with
      | some target => return ⟨.callDirect target ref converted, m.returns⟩
      | none => refuse (.methodNeedsObject m.owner m.name) span

/-- The class or struct that can be instantiated under a type reference. -/
def instantiable (ref : TypeRef) (span : Span) : Bind (Path × TypeDef) := do
  let t ← resolveValueType (← body).ctx ref
  match t with
  | .named path =>
    let d ← typeDef path
    if !d.hasObjects then refuse (.cannotInstantiate t.text) span
    else if d.isStatic then refuse (.instantiateStatic t.text) span
    else if d.isAbstract then refuse (.instantiateAbstract t.text) span
    else return (path, d)
  | _ => refuse (.cannotInstantiate t.text) span

def construct (path : Path) (d : TypeDef) (args : List Arg) (span : Span) : Bind Typed := do
  if d.constructors.isEmpty then
    if args.isEmpty then return ⟨.new path none [], .named path⟩
    else refuse (.noConstructorTakes path.text args.length) span
  else
    let candidates := d.constructors.zipIdx.map fun (m, i) => (i, m)
    let (index, m) ← chooseOverload path.last candidates args span
    let converted ← convertArgs m args
    return ⟨.new path (some index) converted, .named path⟩

def ofTyped (v : Typed) : Resolved := .value v.expr v.type

mutual

/-- What an expression denotes. Operands are all visited, so that each can report its own
problems, before any of them makes the whole give up. -/
def resolve : Expr → Bind Resolved
  | .name span id => resolveName ⟨id, span⟩
  | .member _ target id => do memberOf (← resolve target) id
  | .paren _ inner => resolve inner
  | .int _ n => return ofTyped (literal n)
  | .double _ x => return .value (.const (.double x)) .double
  | .str _ s => return .value (.const (.str s)) .string
  | .bool _ b => return .value (.const (.bool b)) .bool
  | .null _ => return .value (.const .null) .null
  | .thisRef span => do
    match (← body).thisType with
    | some path => return .value .thisRef (.named path)
    | none => refuse .thisInStatic span
  | .call span callee args => do
    match ← resolve callee with
    | .methods group =>
      let args ← Attempt.ofOption (Attempt.allSome (← resolveArgs args))
      return ofTyped (← call group args span)
    | _ => refuse .notCallable callee.span
  | .new span type args => do
    let (path, d) ← instantiable type span
    let args ← Attempt.ofOption (Attempt.allSome (← resolveArgs args))
    return ofTyped (← construct path d args span)
  | .unary _ .neg (.int _ n) => return ofTyped (literal (-n))
  | .unary span op operand => do
    let v ← demandValue operand.span (← resolve operand)
    return ofTyped (← unary span op v)
  | .binary span op left right => do
    if op = .and ∨ op = .or then
      let l? ← Attempt.optional (do demandType .bool left.span (← resolve left))
      let r? ← Attempt.optional (do demandType .bool right.span (← resolve right))
      let l ← Attempt.ofOption l?
      let r ← Attempt.ofOption r?
      return .value (if op = .and then .both l r else .either l r) .bool
    else
      let l? ← Attempt.optional (do demandValue left.span (← resolve left))
      let r? ← Attempt.optional (do demandValue right.span (← resolve right))
      let l ← Attempt.ofOption l?
      let r ← Attempt.ofOption r?
      return ofTyped (← strict span op l r left.span right.span)
  | .assign span op target value => do
    let (p, t) ← demandPlace target.span (← resolve target)
    match op with
    | none =>
      let e ← demandType t value.span (← resolve value)
      return .value (.assign p e) t
    | some op =>
      let v ← demandValue value.span (← resolve value)
      return ofTyped (← compound span op p t v value.span)
  | .step span op leading target => do
    let (p, t) ← demandPlace target.span (← resolve target)
    return ofTyped (← stepped span op leading p t)
  | .cond span test yes no => do
    let c? ← Attempt.optional (do demandType .bool test.span (← resolve test))
    let l? ← Attempt.optional (do demandValue yes.span (← resolve yes))
    let r? ← Attempt.optional (do demandValue no.span (← resolve no))
    let c ← Attempt.ofOption c?
    let l ← Attempt.ofOption l?
    let r ← Attempt.ofOption r?
    return ofTyped (← conditional span c l r yes.span no.span)

/-- Every argument as a value; none stands for one that is refused. -/
def resolveArgs : List Expr → Bind (List (Option Arg))
  | [] => return []
  | e :: es => do
    let arg? ← Attempt.optional (do
      let v ← demandValue e.span (← resolve e)
      return Arg.mk v.expr v.type e.span)
    let rest ← resolveArgs es
    return arg? :: rest

end

/-- An expression, perhaps a void call. -/
def expr (e : Expr) : Bind Typed := do demand e.span (← resolve e)

/-- An expression that has a value. -/
def value (e : Expr) : Bind Typed := do demandValue e.span (← resolve e)

/-- An expression converted to a type. -/
def converted (target : Ty) (e : Expr) : Bind BoundExpr := do
  demandType target e.span (← resolve e)

def condition (e : Expr) : Bind BoundExpr := converted .bool e

end Chunkwise.Bind
