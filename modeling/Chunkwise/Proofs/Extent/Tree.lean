import Chunkwise.Syntax.Decl
import Mathlib.Data.Prod.Lex
import Mathlib.Order.MinMax

/-!
What is left of a syntax tree when everything but the spans is forgotten. A tree is nested if every
node lies within its parent and the children of a node stand one after the other, none of them over the
start of the next one.
-/
namespace Chunkwise

namespace Span

/-- The position of the first character. Positions are ordered by line, then by column. -/
def first (s : Span) : Nat ×ₗ Nat := toLex (s.startLine.toNat, s.startCol.toNat)

/-- The position of the last character. -/
def last (s : Span) : Nat ×ₗ Nat := toLex (s.endLine.toNat, s.endCol.toNat)

/-- The region lies inside the other one. -/
def Within (s t : Span) : Prop := t.first ≤ s.first ∧ s.last ≤ t.last

/-- The region ends before the other one begins. -/
def Before (s t : Span) : Prop := s.last < t.first

theorem posLE_iff (line col line' col' : UInt32) : posLE line col line' col' = true ↔
    toLex (line.toNat, col.toNat) ≤ toLex (line'.toNat, col'.toNat) := by
  simp [posLE, Prod.Lex.toLex_le_toLex, UInt32.lt_iff_toNat_lt, UInt32.le_iff_toNat_le,
    ← UInt32.toNat_inj]

theorem merge_first (s t : Span) : (s.merge t).first = min s.first t.first := by
  by_cases h : posLE s.startLine s.startCol t.startLine t.startCol = true
  · have hle : s.first ≤ t.first := (posLE_iff _ _ _ _).mp h
    rw [min_eq_left hle]
    simp [first, merge, h]
  · have hle : t.first ≤ s.first := by
      have hlt : ¬s.first ≤ t.first := fun hle => h ((posLE_iff _ _ _ _).mpr hle)
      exact (le_total _ _).resolve_left hlt
    rw [min_eq_right hle]
    simp [first, merge, h]

theorem merge_last (s t : Span) : (s.merge t).last = max s.last t.last := by
  by_cases h : posLE s.endLine s.endCol t.endLine t.endCol = true
  · have hle : s.last ≤ t.last := (posLE_iff _ _ _ _).mp h
    rw [max_eq_right hle]
    simp [last, merge, h]
  · have hle : t.last ≤ s.last := by
      have hlt : ¬s.last ≤ t.last := fun hle => h ((posLE_iff _ _ _ _).mpr hle)
      exact (le_total _ _).resolve_left hlt
    rw [max_eq_left hle]
    simp [last, merge, h]

end Span

inductive SpanTree where
  | node (span : Span) (children : List SpanTree)

namespace SpanTree

def span : SpanTree → Span
  | node s _ => s

inductive Nested : SpanTree → Prop where
  | node {s : Span} {ts : List SpanTree} (inside : ∀ t ∈ ts, t.span.Within s)
      (apart : ts.Pairwise fun t u => t.span.Before u.span) (nested : ∀ t ∈ ts, Nested t) :
      Nested (node s ts)

section Nested

variable {s : Span} {ts : List SpanTree}

theorem Nested.apart (h : Nested (.node s ts)) : ts.Pairwise fun t u => t.span.Before u.span := by
  cases h with
  | node _ apart _ => exact apart

theorem Nested.child (h : Nested (.node s ts)) {t : SpanTree} (ht : t ∈ ts) : Nested t := by
  cases h with
  | node _ _ nested => exact nested t ht

end Nested

end SpanTree

def Ident.spanTree (id : Ident) : SpanTree := .node id.span []

def QualifiedName.spanTree (q : QualifiedName) : SpanTree := .node q.span (q.parts.map Ident.spanTree)

def TypeRef.spanTree : TypeRef → SpanTree
  | ⟨.named q, span⟩ => .node span [q.spanTree]
  | ⟨_, span⟩ => .node span []

@[simp] theorem TypeRef.span_spanTree (t : TypeRef) : t.spanTree.span = t.span := by
  obtain ⟨type, span⟩ := t
  cases type <;> rfl

namespace Expr

mutual

def spanTree : Expr → SpanTree
  | .int s _ | .double s _ | .str s _ | .bool s _ | .null s | .thisRef s | .name s _ => .node s []
  | .member s target id => .node s [target.spanTree, id.spanTree]
  | .call s callee args => .node s (callee.spanTree :: spanTrees args)
  | .new s type args => .node s (type.spanTree :: spanTrees args)
  | .unary s _ e | .step s _ _ e | .paren s e => .node s [e.spanTree]
  | .binary s _ l r | .assign s _ l r => .node s [l.spanTree, r.spanTree]
  | .cond s test yes no => .node s [test.spanTree, yes.spanTree, no.spanTree]

def spanTrees : List Expr → List SpanTree
  | [] => []
  | e :: es => e.spanTree :: spanTrees es

end

@[simp] theorem spanTrees_eq (es : List Expr) : spanTrees es = es.map spanTree := by
  induction es with
  | nil => rfl
  | cons e es ih => rw [spanTrees, ih, List.map_cons]

@[simp] theorem span_spanTree (e : Expr) : e.spanTree.span = e.span := by
  cases e <;> rw [spanTree] <;> rfl

end Expr

def Declarator.spanTree (d : Declarator) : SpanTree :=
  .node d.span (d.name.spanTree :: d.init.toList.map Expr.spanTree)

def LocalDecl.spanTree (d : LocalDecl) : SpanTree :=
  .node d.span (d.type.spanTree :: d.declarators.map Declarator.spanTree)

def ForInit.spanTrees : ForInit → List SpanTree
  | .none => []
  | .declare d => [d.spanTree]
  | .exprs es => es.map Expr.spanTree

namespace Stmt

mutual

def spanTree : Stmt → SpanTree
  | .empty s | .breakLoop s | .continueLoop s => .node s []
  | .block s body => .node s (spanTrees body)
  | .declare s d => .node s [d.spanTree]
  | .expr s e => .node s [e.spanTree]
  | .ifElse s test yes none => .node s [test.spanTree, yes.spanTree]
  | .ifElse s test yes (some no) => .node s [test.spanTree, yes.spanTree, no.spanTree]
  | .whileDo s test body => .node s [test.spanTree, body.spanTree]
  | .doWhile s body test => .node s [body.spanTree, test.spanTree]
  | .forLoop s init test update body =>
    .node s (init.spanTrees ++ (test.toList.map Expr.spanTree ++
      (update.map Expr.spanTree ++ [body.spanTree])))
  | .returnValue s value | .throwValue s value => .node s (value.toList.map Expr.spanTree)

def spanTrees : List Stmt → List SpanTree
  | [] => []
  | s :: rest => s.spanTree :: spanTrees rest

end

@[simp] theorem spanTrees_eq (ss : List Stmt) : spanTrees ss = ss.map spanTree := by
  induction ss with
  | nil => rfl
  | cons s ss ih => rw [spanTrees, ih, List.map_cons]

end Stmt

def Block.spanTree (b : Block) : SpanTree := .node b.span (b.stmts.map Stmt.spanTree)

def StatementUnit.spanTree (u : StatementUnit) : SpanTree := .node u.span (u.stmts.map Stmt.spanTree)

def Param.spanTree (p : Param) : SpanTree := .node p.span [p.type.spanTree, p.name.spanTree]

def FieldDecl.spanTree (d : FieldDecl) : SpanTree :=
  .node d.span (d.type.spanTree :: d.declarators.map Declarator.spanTree)

def MethodDecl.spanTree (d : MethodDecl) : SpanTree :=
  .node d.span (d.returns.spanTree :: d.name.spanTree ::
    (d.params.map Param.spanTree ++ d.body.toList.map Block.spanTree))

def ConstructorDecl.spanTree (d : ConstructorDecl) : SpanTree :=
  .node d.span (d.name.spanTree :: (d.params.map Param.spanTree ++ [d.body.spanTree]))

def EnumMemberDecl.spanTree (d : EnumMemberDecl) : SpanTree :=
  .node d.span (d.name.spanTree :: d.value.toList.map Expr.spanTree)

def TypeHead.spanTrees (h : TypeHead) : List SpanTree :=
  h.attributes.map QualifiedName.spanTree ++ h.name.spanTree :: h.bases.map QualifiedName.spanTree

namespace MemberDecl

mutual

def spanTree : MemberDecl → SpanTree
  | .field d => d.spanTree
  | .method d => d.spanTree
  | .constructor d => d.spanTree
  | .enumMember d => d.spanTree
  | .nested s head members => .node s (head.spanTrees ++ spanTrees members)

def spanTrees : List MemberDecl → List SpanTree
  | [] => []
  | m :: ms => m.spanTree :: spanTrees ms

end

@[simp] theorem spanTrees_eq (ms : List MemberDecl) : spanTrees ms = ms.map spanTree := by
  induction ms with
  | nil => rfl
  | cons m ms ih => rw [spanTrees, ih, List.map_cons]

end MemberDecl

def TypeDecl.spanTree (d : TypeDecl) : SpanTree :=
  .node d.span (d.head.spanTrees ++ d.members.map MemberDecl.spanTree)

namespace NamespaceMember

mutual

def spanTree : NamespaceMember → SpanTree
  | .space s name members => .node s (name.spanTree :: spanTrees members)
  | .type d => d.spanTree

def spanTrees : List NamespaceMember → List SpanTree
  | [] => []
  | m :: ms => m.spanTree :: spanTrees ms

end

@[simp] theorem spanTrees_eq (ms : List NamespaceMember) : spanTrees ms = ms.map spanTree := by
  induction ms with
  | nil => rfl
  | cons m ms ih => rw [spanTrees, ih, List.map_cons]

end NamespaceMember

def UsingDirective.spanTree (u : UsingDirective) : SpanTree :=
  .node u.span (u.aliasName.toList.map Ident.spanTree ++ [u.target.spanTree])

def DeclarationUnit.spanTree (u : DeclarationUnit) : SpanTree :=
  .node u.span (u.usings.map UsingDirective.spanTree ++ u.members.map NamespaceMember.spanTree)

end Chunkwise
