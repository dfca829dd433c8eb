import Chunkwise.Proofs.Binder.Stmt
import Chunkwise.Proofs.Parallel.Same

/-!
The later statements of a chunk can also be bound as a chunk of their own, once the earlier ones are
part of the session. In the one case the variables of the earlier statements are bindings of the top
scope and the frame slots of their locals are taken; in the other these variables are registered and
frame slots start from zero. `Seam` describes the two cases and `Twin` relates the states on either side.
-/
namespace Chunkwise

def Binding.lift (k : Nat) : Binding → Binding
  | .frame slot type isReadonly => .frame (k + slot) type isReadonly
  | .variable slot type isReadonly => .variable slot type isReadonly

def Scope.lift (k : Nat) (scope : Scope) : Scope :=
  { scope with bindings := scope.bindings.map fun x => (x.1, x.2.lift k) }

/-- The scopes with frame slots moved up and further bindings at the end of the root. -/
def Scopes.behind (k : Nat) (older : List (String × Binding)) (sc : Scopes) : Scopes :=
  ⟨sc.inner.map (Scope.lift k), ⟨sc.root.kind, (sc.root.lift k).bindings ++ older⟩, k + sc.nextSlot⟩

theorem lookup_mapped {α β γ : Type} [BEq α] (f : β → γ) (l : List (α × β)) (a : α) :
    (l.map fun x => (x.1, f x.2)).lookup a = (l.lookup a).map f := by
  induction l with
  | nil => rfl
  | cons x l ih =>
    obtain ⟨b, c⟩ := x
    simp only [List.map_cons, List.lookup_cons, ih]
    cases a == b <;> rfl

theorem Scope.lift_lookup (k : Nat) (scope : Scope) (name : String) :
    (scope.lift k).bindings.lookup name = (scope.bindings.lookup name).map (Binding.lift k) :=
  lookup_mapped (Binding.lift k) scope.bindings name

namespace Scopes

variable {k : Nat} {older : List (String × Binding)} {sc : Scopes}

theorem lookup_behind (name : String) : (sc.behind k older).lookup name =
    ((sc.lookup name).map (Binding.lift k)).or (older.lookup name) := by
  have hinner : (sc.inner.map (Scope.lift k)).findSome? (fun scope => scope.bindings.lookup name) =
      (sc.inner.findSome? fun scope => scope.bindings.lookup name).map (Binding.lift k) := by
    rw [List.findSome?_map, List.map_findSome?]
    exact congrArg (sc.inner.findSome? ·) (funext fun scope => scope.lift_lookup k name)
  simp only [lookup, all, behind, List.findSome?_append, List.findSome?_singleton, hinner,
    List.lookup_append, Scope.lift_lookup, Option.map_or, Option.or_assoc]

theorem inLoop_behind : (sc.behind k older).inLoop = sc.inLoop := by
  simp [inLoop, all, behind, Scope.lift, Function.comp_def]

theorem definedHere_behind (h : sc.inner ≠ []) (name : String) :
    (sc.behind k older).definedHere name = sc.definedHere name := by
  cases hinner : sc.inner with
  | nil => exact absurd hinner h
  | cons scope rest => simp [definedHere, innermost, behind, hinner, Scope.lift_lookup]

theorem definedHere_behind_top (h : sc.inner = []) (name : String) :
    (sc.behind k older).definedHere name =
      (sc.definedHere name || (older.lookup name).isSome) := by
  simp [definedHere, innermost, behind, h, List.lookup_append, Scope.lift_lookup, Option.isSome_or]

theorem insert_behind (name : String) (x : Binding) :
    (sc.behind k older).insert name (x.lift k) = (sc.insert name x).behind k older := by
  cases hinner : sc.inner <;> simp [insert, behind, hinner, Scope.lift]

variable (k older sc) in
theorem local_behind (name : String) (t : Ty) (isReadonly : Bool) :
    { (sc.behind k older).insert name (.frame (k + sc.nextSlot) t isReadonly) with
      nextSlot := k + sc.nextSlot + 1 } =
      ({ sc.insert name (.frame sc.nextSlot t isReadonly) with
        nextSlot := sc.nextSlot + 1 } : Scopes).behind k older := by
  cases hinner : sc.inner <;>
    simp [insert, behind, hinner, Scope.lift, Binding.lift, Nat.add_assoc]

theorem push_behind (kind : ScopeKind) :
    (sc.behind k older).push kind = (sc.push kind).behind k older := by
  simp [push, behind, Scope.lift]

theorem pop_behind : (sc.behind k older).pop = sc.pop.behind k older := by
  simp [pop, behind, List.map_tail]

end Scopes

/-- A variable that a chunk declares at its top. -/
structure NewVariable where
  name : String
  type : Ty
  isReadonly : Bool

namespace NewVariable

variable (n : Nat) (vs : List NewVariable)

/-- The variables as they are to be registered, with slots from `n` on. -/
def pendings : List PendingVariable :=
  (vs.zipIdx n).map fun x => ⟨x.1.name, x.2, x.1.isReadonly⟩

/-- The variables as bindings of the top scope, the latest first. -/
def bindings : List (String × Binding) :=
  ((vs.zipIdx n).map fun x => (x.1.name, .variable x.2 x.1.type x.1.isReadonly)).reverse

/-- The slot of a variable before it is set. -/
def slot (im : Image) (v : NewVariable) : Slot := ⟨v.name, v.type, im.defaultValue v.type, false⟩

variable (v : NewVariable)

theorem pendings_concat :
    pendings n (vs ++ [v]) = pendings n vs ++ [⟨v.name, n + vs.length, v.isReadonly⟩] := by
  simp [pendings, List.zipIdx_append]

theorem bindings_concat : bindings n (vs ++ [v]) =
    (v.name, .variable (n + vs.length) v.type v.isReadonly) :: bindings n vs := by
  simp [bindings, List.zipIdx_append]

end NewVariable

/-- The store with a slot for each of these variables. -/
def Store.withVariables (st : Store) (im : Image) (vs : List NewVariable) : Store :=
  { st with slots := st.slots ++ (vs.map (NewVariable.slot im)).toArray }

theorem Store.withVariables_addSlot (st : Store) (im : Image) (vs : List NewVariable)
    (v : NewVariable) : (st.withVariables im vs).addSlot v.name v.type (im.defaultValue v.type) =
      (st.slots.size + vs.length, st.withVariables im (vs ++ [v])) := by
  simp [withVariables, addSlot, NewVariable.slot]

def Registry.meaning? (r : Registry) (st : Store) (name : String) : Option Resolved :=
  (r.lookup name).bind fun v =>
    (st.slots[v.slot]?).map fun slot => .place (.static v.slot) slot.type v.isReadonly

theorem Registry.meaning?_withVariables {r : Registry} {st : Store}
    (h : ∀ name v, r.lookup name = some v → v.slot < st.slots.size) (im : Image)
    (vs : List NewVariable) (name : String) :
    r.meaning? (st.withVariables im vs) name = r.meaning? st name := by
  unfold Registry.meaning?
  cases hv : r.lookup name with
  | none => rfl
  | some v =>
    have hslot : (st.withVariables im vs).slots[v.slot]? = st.slots[v.slot]? :=
      Array.getElem?_append_left (h name v hv)
    simp only [Option.bind_some, hslot]

/-- Where the later statements of a chunk begin. `whole` is the store of the whole chunk before them
and `rest` the one of a chunk of their own. -/
structure Seam where
  /-- The number of frame slots of the earlier statements. -/
  shift : Nat
  /-- Whether a result of the chunk of its own is one of the whole chunk. -/
  keeps : Bool
  /-- The variables of the earlier statements, which are bindings in the whole chunk. -/
  bindings : List (String × Binding)
  pending : List PendingVariable
  whole : Store
  wholeNames : Registry
  rest : Store
  restNames : Registry
  size : whole.slots.size = rest.slots.size
  whole_slots : ∀ name v, wholeNames.lookup name = some v → v.slot < whole.slots.size
  rest_slots : ∀ name v, restNames.lookup name = some v → v.slot < rest.slots.size
  known : ∀ name, ((bindings.lookup name).isSome || (wholeNames.lookup name).isSome) =
    (restNames.lookup name).isSome
  meaning : ∀ name, ((bindings.lookup name).map Resolved.ofBinding).or
    (wholeNames.meaning? whole name) = restNames.meaning? rest name

/-- The body of top-level statements with these scopes. -/
def BodyContext.hostWith (sc : Scopes) : BodyContext := ⟨.top, none, none, false, sc⟩

/-- What is remembered is what lookup at the top finds. -/
def BindState.Remembers (s : BindState) : Prop :=
  ∀ name e, s.cache.lookup (cacheKey .top name) = some e → s.lookupUncached .top name = some e

/-- The states of the whole chunk and of the chunk of its own, when both have declared these variables
since the seam. -/
structure BindState.Twin (g : Seam) (vs : List NewVariable) (s t : BindState) : Prop where
  image : s.image = t.image
  usings : s.usings = t.usings
  issues : s.issues.hasAny = t.issues.hasAny
  names : s.registry = g.wholeNames ∧ t.registry = g.restNames
  store : s.store = g.whole.withVariables t.image vs ∧ t.store = g.rest.withVariables t.image vs
  added : s.newVariables = g.pending ++ NewVariable.pendings g.rest.slots.size vs ∧
    t.newVariables = NewVariable.pendings g.rest.slots.size vs
  body : s.body = .hostWith (t.body.scopes.behind g.shift g.bindings) ∧ t.body = .hostWith t.body.scopes
  root : t.body.scopes.root = ⟨.host, NewVariable.bindings g.rest.slots.size vs⟩
  cache : s.Remembers ∧ t.Remembers

theorem filterMap_id_map {α β : Type} (f : β → α) (os : List (Option β)) :
    (os.map (Option.map f)).filterMap id = (os.filterMap id).map f := by
  simp [List.filterMap_map, List.map_filterMap]

end Chunkwise
