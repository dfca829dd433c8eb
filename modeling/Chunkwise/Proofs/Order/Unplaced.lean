import Chunkwise.Proofs.Faithful.Counterpart
import Chunkwise.Proofs.Parallel.Relocate
import Chunkwise.Proofs.RoundTrip.Print

/-!
Where a declaration stands in its text shows in its spans only. `unplaced` is the declaration with all
spans forgotten, so that two texts of one declaration are the same.
-/
namespace Chunkwise

def QualifiedName.bare (q : QualifiedName) : QualifiedName := q.relocate fun _ => default

def Expr.unplaced (e : Expr) : Expr := e.relocate fun _ => default

def Declarator.unplaced (d : Declarator) : Declarator := d.relocate fun _ => default

def Stmt.unplacedAll (ss : List Stmt) : List Stmt := Stmt.relocateAll (fun _ => default) ss

def Block.unplaced (b : Block) : Block := ⟨Stmt.unplacedAll b.stmts, default⟩

def FieldDecl.unplaced (f : FieldDecl) : FieldDecl :=
  ⟨f.modifiers, f.type.bare, f.declarators.map Declarator.unplaced, default⟩

def Param.unplaced (p : Param) : Param := ⟨p.type.bare, p.name.bare, default⟩

def MethodDecl.unplaced (m : MethodDecl) : MethodDecl :=
  ⟨m.modifiers, m.returns.bare, m.name.bare, m.params.map Param.unplaced,
    m.body.map Block.unplaced, default⟩

def ConstructorDecl.unplaced (c : ConstructorDecl) : ConstructorDecl :=
  ⟨c.modifiers, c.name.bare, c.params.map Param.unplaced, c.body.unplaced, default⟩

def EnumMemberDecl.unplaced (m : EnumMemberDecl) : EnumMemberDecl :=
  ⟨m.name.bare, m.value.map Expr.unplaced, default⟩

def TypeHead.unplaced (h : TypeHead) : TypeHead :=
  ⟨h.attributes.map QualifiedName.bare, h.modifiers, h.kind, h.name.bare,
    h.bases.map QualifiedName.bare⟩

namespace MemberDecl

mutual

def unplaced : MemberDecl → MemberDecl
  | .field f => .field f.unplaced
  | .method m => .method m.unplaced
  | .constructor c => .constructor c.unplaced
  | .enumMember m => .enumMember m.unplaced
  | .nested _ head members => .nested default head.unplaced (unplacedAll members)

def unplacedAll : List MemberDecl → List MemberDecl
  | [] => []
  | m :: rest => m.unplaced :: unplacedAll rest

end

end MemberDecl

def TypeDecl.unplaced (d : TypeDecl) : TypeDecl :=
  ⟨d.head.unplaced, MemberDecl.unplacedAll d.members, default⟩

def UsingDirective.unplaced (u : UsingDirective) : UsingDirective :=
  ⟨u.aliasName.map Ident.bare, u.target.bare, default⟩

def DeclaredType.unplaced (d : DeclaredType) : DeclaredType :=
  ⟨d.head.unplaced, MemberDecl.unplacedAll d.members, d.ctx⟩

def PopulatedType.unplaced (p : PopulatedType) : PopulatedType :=
  ⟨p.decl.unplaced, p.methods.map fun x => (x.1.unplaced, x.2),
    p.constructors.map fun x => (x.1.unplaced, x.2)⟩

mutual

theorem MemberDecl.types_unplaced : ∀ (m : MemberDecl) (ctx : TypeContext),
    m.unplaced.types ctx = (m.types ctx).map DeclaredType.unplaced
  | .nested _ head members, ctx => by
    simp only [unplaced, types, List.map_cons, nestedTypes_unplaced members]
    rfl
  | .field _, _ | .method _, _ | .constructor _, _ | .enumMember _, _ => by
    simp only [unplaced, types, List.map_nil]

theorem MemberDecl.nestedTypes_unplaced : ∀ (ms : List MemberDecl) (ctx : TypeContext),
    nestedTypes ctx (unplacedAll ms) = (nestedTypes ctx ms).map DeclaredType.unplaced
  | [], _ => by simp only [unplacedAll, nestedTypes, List.map_nil]
  | m :: rest, ctx => by
    simp only [unplacedAll, nestedTypes, List.map_append, types_unplaced m,
      nestedTypes_unplaced rest]

end

/-- The types that a declaration at the top of a chunk declares. -/
def TypeDecl.types (d : TypeDecl) : List DeclaredType := NamespaceMember.types [] (.type d)

theorem TypeDecl.types_unplaced (d : TypeDecl) :
    d.unplaced.types = d.types.map DeclaredType.unplaced := by
  simp only [types, NamespaceMember.types, unplaced, List.map_cons, MemberDecl.nestedTypes_unplaced]
  rfl

/-- Declarations in another order declare their types in another order. -/
theorem TypeDecl.perm_types {ds es : List TypeDecl}
    (h : (ds.map TypeDecl.unplaced).Perm (es.map TypeDecl.unplaced)) :
    ((ds.flatMap TypeDecl.types).map DeclaredType.unplaced).Perm
      ((es.flatMap TypeDecl.types).map DeclaredType.unplaced) := by
  have hflat : ∀ l : List TypeDecl, (l.flatMap types).map DeclaredType.unplaced =
      (l.map unplaced).flatMap types := by
    intro l
    rw [List.map_flatMap, List.flatMap_map]
    exact congrArg (List.flatMap · l) (funext fun d => d.types_unplaced.symm)
  rw [hflat, hflat]
  exact h.flatMap_right _

end Chunkwise
