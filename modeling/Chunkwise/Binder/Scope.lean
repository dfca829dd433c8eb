import Chunkwise.Program.Value

/-!
The names in scope while one body is bound. Frame slots are numbered from zero and never used
twice in a body, so their number is the number of locals ever defined.
-/
namespace Chunkwise

inductive ScopeKind where
  /-- The top of a chunk, where declarations become variables of the session. -/
  | host
  | method
  | block
  | loop
  deriving DecidableEq, Repr

inductive Binding where
  | frame (slot : Nat) (type : Ty) (isReadonly : Bool)
  | variable (slot : Nat) (type : Ty) (isReadonly : Bool)
  deriving DecidableEq, Repr

structure Scope where
  kind : ScopeKind
  bindings : List (String × Binding)
  deriving DecidableEq, Repr

/-- The scopes inside the root, innermost first, and the root itself. -/
structure Scopes where
  inner : List Scope
  root : Scope
  nextSlot : Nat
  deriving DecidableEq, Repr

namespace Scopes

def ofKind (kind : ScopeKind) : Scopes := ⟨[], ⟨kind, []⟩, 0⟩

def push (s : Scopes) (kind : ScopeKind) : Scopes := { s with inner := ⟨kind, []⟩ :: s.inner }

/-- Leaves the innermost scope; the root stays. -/
def pop (s : Scopes) : Scopes := { s with inner := s.inner.tail }

def all (s : Scopes) : List Scope := s.inner ++ [s.root]

def innermost (s : Scopes) : Scope :=
  match s.inner with
  | scope :: _ => scope
  | [] => s.root

/-- The binding of the innermost scope that has one. -/
def lookup (s : Scopes) (name : String) : Option Binding :=
  s.all.findSome? fun scope => scope.bindings.lookup name

def definedHere (s : Scopes) (name : String) : Bool :=
  (s.innermost.bindings.lookup name).isSome

def insert (s : Scopes) (name : String) (b : Binding) : Scopes :=
  match s.inner with
  | scope :: rest =>
    { s with inner := { scope with bindings := (name, b) :: scope.bindings } :: rest }
  | [] => { s with root := { s.root with bindings := (name, b) :: s.root.bindings } }

/-- Gives a local the next frame slot, unless the scope has its name already. -/
def defineLocal (s : Scopes) (name : String) (type : Ty) (isReadonly : Bool) :
    Option Nat × Scopes :=
  if s.definedHere name then (none, s)
  else
    (some s.nextSlot,
      { s.insert name (.frame s.nextSlot type isReadonly) with nextSlot := s.nextSlot + 1 })

/-- Binds a variable of the session, unless the scope has its name already. -/
def defineVariable (s : Scopes) (name : String) (slot : Nat) (type : Ty) (isReadonly : Bool) :
    Bool × Scopes :=
  if s.definedHere name then (false, s)
  else (true, s.insert name (.variable slot type isReadonly))

/-- Whether a jump has a loop to leave. -/
def inLoop (s : Scopes) : Bool := s.all.any fun scope => scope.kind == .loop

def atHostTop (s : Scopes) : Bool := s.inner.isEmpty && s.root.kind == .host

/-- The number of frame slots needed. -/
def slotCount (s : Scopes) : Nat := s.nextSlot

end Scopes

end Chunkwise
