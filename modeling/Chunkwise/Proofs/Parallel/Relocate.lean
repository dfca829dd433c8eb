import Chunkwise.Syntax.Stmt

/-!
Code at another place of the text differs in its spans only. `relocate` moves each of them.
-/
namespace Chunkwise

def Ident.relocate (f : Span → Span) (id : Ident) : Ident := ⟨id.name, f id.span⟩

def QualifiedName.relocate (f : Span → Span) (q : QualifiedName) : QualifiedName :=
  ⟨q.parts.map (Ident.relocate f), f q.span⟩

def TypeExpr.relocate (f : Span → Span) : TypeExpr → TypeExpr
  | .named q => .named (q.relocate f)
  | t => t

def TypeRef.relocate (f : Span → Span) (t : TypeRef) : TypeRef := ⟨t.type.relocate f, f t.span⟩

namespace Expr

mutual

def relocate (f : Span → Span) : Expr → Expr
  | .int s n => .int (f s) n
  | .double s x => .double (f s) x
  | .str s text => .str (f s) text
  | .bool s b => .bool (f s) b
  | .null s => .null (f s)
  | .thisRef s => .thisRef (f s)
  | .name s id => .name (f s) id
  | .member s e id => .member (f s) (e.relocate f) (id.relocate f)
  | .call s e args => .call (f s) (e.relocate f) (relocateAll f args)
  | .new s t args => .new (f s) (t.relocate f) (relocateAll f args)
  | .unary s op e => .unary (f s) op (e.relocate f)
  | .binary s op a b => .binary (f s) op (a.relocate f) (b.relocate f)
  | .assign s op target value => .assign (f s) op (target.relocate f) (value.relocate f)
  | .step s op leading e => .step (f s) op leading (e.relocate f)
  | .cond s test yes no => .cond (f s) (test.relocate f) (yes.relocate f) (no.relocate f)
  | .paren s e => .paren (f s) (e.relocate f)

def relocateAll (f : Span → Span) : List Expr → List Expr
  | [] => []
  | e :: es => e.relocate f :: relocateAll f es

end

end Expr

def Declarator.relocate (f : Span → Span) (d : Declarator) : Declarator :=
  ⟨d.name.relocate f, d.init.map (Expr.relocate f), f d.span⟩

def LocalDecl.relocate (f : Span → Span) (d : LocalDecl) : LocalDecl :=
  ⟨d.isConst, d.type.relocate f, d.declarators.map (Declarator.relocate f), f d.span⟩

def ForInit.relocate (f : Span → Span) : ForInit → ForInit
  | .none => .none
  | .declare decl => .declare (decl.relocate f)
  | .exprs es => .exprs (es.map (Expr.relocate f))

namespace Stmt

mutual

def relocate (f : Span → Span) : Stmt → Stmt
  | .empty s => .empty (f s)
  | .block s body => .block (f s) (relocateAll f body)
  | .declare s decl => .declare (f s) (decl.relocate f)
  | .expr s e => .expr (f s) (e.relocate f)
  | .ifElse s test yes none => .ifElse (f s) (test.relocate f) (yes.relocate f) none
  | .ifElse s test yes (some no) =>
    .ifElse (f s) (test.relocate f) (yes.relocate f) (some (no.relocate f))
  | .whileDo s test body => .whileDo (f s) (test.relocate f) (body.relocate f)
  | .doWhile s body test => .doWhile (f s) (body.relocate f) (test.relocate f)
  | .forLoop s init test update body => .forLoop (f s) (init.relocate f)
      (test.map (Expr.relocate f)) (update.map (Expr.relocate f)) (body.relocate f)
  | .breakLoop s => .breakLoop (f s)
  | .continueLoop s => .continueLoop (f s)
  | .returnValue s e => .returnValue (f s) (e.map (Expr.relocate f))
  | .throwValue s e => .throwValue (f s) (e.map (Expr.relocate f))

def relocateAll (f : Span → Span) : List Stmt → List Stmt
  | [] => []
  | s :: rest => s.relocate f :: relocateAll f rest

end

end Stmt

section Names

variable (f : Span → Span)

@[simp] theorem Ident.relocate_name (id : Ident) : (id.relocate f).name = id.name := rfl

@[simp]
theorem QualifiedName.relocate_segments (q : QualifiedName) :
    (q.relocate f).segments = q.segments := by
  simp [segments, relocate]

@[simp]
theorem QualifiedName.relocate_text (q : QualifiedName) : (q.relocate f).text = q.text := by
  unfold text
  rw [relocate_segments]

@[simp]
theorem Expr.relocate_span (e : Expr) : (e.relocate f).span = f e.span := by
  cases e <;> simp only [relocate, span]

end Names

section Identity

@[simp] theorem Ident.relocate_id (id' : Ident) : id'.relocate id = id' := rfl

@[simp]
theorem QualifiedName.relocate_id (q : QualifiedName) : q.relocate id = q := by
  have hparts : q.parts.map (Ident.relocate id) = q.parts := List.map_id _
  unfold relocate
  rw [hparts]
  rfl

@[simp]
theorem TypeRef.relocate_id (t : TypeRef) : t.relocate id = t := by
  obtain ⟨type, span⟩ := t
  cases type <;> simp [relocate, TypeExpr.relocate]

mutual

@[simp]
theorem Expr.relocate_id : ∀ e : Expr, e.relocate id = e
  | .int .. | .double .. | .str .. | .bool .. | .null .. | .thisRef .. | .name .. => by
    simp only [relocate, id]
  | .member _ e _ | .unary _ _ e | .step _ _ _ e | .paren _ e => by
    simp only [relocate, e.relocate_id, Ident.relocate_id, id]
  | .call _ e args => by simp only [relocate, e.relocate_id, relocateAll_id args, id]
  | .new _ _ args => by simp only [relocate, TypeRef.relocate_id, relocateAll_id args, id]
  | .binary _ _ a b | .assign _ _ a b => by simp only [relocate, a.relocate_id, b.relocate_id, id]
  | .cond _ a b c => by simp only [relocate, a.relocate_id, b.relocate_id, c.relocate_id, id]

theorem Expr.relocateAll_id : ∀ es : List Expr, Expr.relocateAll id es = es
  | [] => rfl
  | e :: es => by rw [relocateAll, e.relocate_id, relocateAll_id es]

end

theorem Expr.map_relocate_id (es : List Expr) : es.map (Expr.relocate id) = es :=
  (List.map_congr_left fun e _ => e.relocate_id).trans (List.map_id es)

theorem Expr.option_relocate_id (e? : Option Expr) : e?.map (Expr.relocate id) = e? := by
  cases e? <;> simp

@[simp]
theorem Declarator.relocate_id (d : Declarator) : d.relocate id = d := by
  unfold relocate
  rw [Expr.option_relocate_id]
  rfl

@[simp]
theorem LocalDecl.relocate_id (d : LocalDecl) : d.relocate id = d := by
  have hdeclarators : d.declarators.map (Declarator.relocate id) = d.declarators :=
    (List.map_congr_left fun d _ => d.relocate_id).trans (List.map_id _)
  unfold relocate
  rw [TypeRef.relocate_id, hdeclarators]
  rfl

theorem ForInit.relocate_id (init : ForInit) : init.relocate id = init := by
  cases init <;> simp only [relocate, LocalDecl.relocate_id, Expr.map_relocate_id]

mutual

@[simp]
theorem Stmt.relocate_id : ∀ s : Stmt, s.relocate id = s
  | .empty _ | .breakLoop _ | .continueLoop _ => by simp only [relocate, id]
  | .block _ body => by simp only [relocate, Stmt.relocateAll_id body, id]
  | .declare _ decl => by simp only [relocate, decl.relocate_id, id]
  | .expr _ e => by simp only [relocate, e.relocate_id, id]
  | .ifElse _ test yes none | .whileDo _ test yes | .doWhile _ yes test => by
    simp only [relocate, test.relocate_id, yes.relocate_id, id]
  | .ifElse _ test yes (some no) => by
    simp only [relocate, test.relocate_id, yes.relocate_id, no.relocate_id, id]
  | .forLoop _ init test update body => by
    simp only [relocate, init.relocate_id, Expr.option_relocate_id, Expr.map_relocate_id,
      body.relocate_id, id]
  | .returnValue _ e | .throwValue _ e => by simp only [relocate, Expr.option_relocate_id, id]

theorem Stmt.relocateAll_id : ∀ ss : List Stmt, Stmt.relocateAll id ss = ss
  | [] => rfl
  | s :: rest => by rw [relocateAll, s.relocate_id, relocateAll_id rest]

end

end Identity

end Chunkwise
