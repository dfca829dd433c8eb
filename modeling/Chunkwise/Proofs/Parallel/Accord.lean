import Chunkwise.Binder.Stmt
import Chunkwise.Proofs.Attempt
import Chunkwise.Proofs.Parallel.Outline
import Chunkwise.Proofs.Parallel.Relocate
import Chunkwise.Proofs.Parallel.Same

/-!
The binder runs on the same code at two places, in two states, with two ways to look up names. `Steady` is
what the states must have in common for types to mean the same. `Accord` adds what bodies need, and with
that the two runs yield the same code up to slots: this is proved once, and each comparison of two runs is
an accord.
-/
namespace Chunkwise

open Attempt

/-- The relation survives an issue on both sides and the lookup of a name, and on both sides everything
lies at the same places. The second run reads spans through `view`. -/
structure Steady (l l' : NameLookup) (view : Span → Span) (known : TypeContext → Prop)
    (R : BindState → BindState → Prop) : Prop where
  issue : ∀ s t p span, R s t →
    R { s with issues := s.issues.push ⟨p, span⟩ } { t with issues := t.issues.push ⟨p, view span⟩ }
  find : ∀ ctx name, known ctx → Parallel R Eq (l.find ctx name) (l'.find ctx name)
  lookup : ∀ s t, R s t → s.image.lookup = t.image.lookup

/-- Code sees no difference between the bodies but in the names in scope. -/
structure BodyContext.Agrees (b b' : BodyContext) : Prop where
  ctx : b.ctx = b'.ctx
  thisType : b.thisType = b'.thisType
  returns : b.returns = b'.returns
  inConstructor : b.inConstructor = b'.inConstructor
  inLoop : b.scopes.inLoop = b'.scopes.inLoop

theorem BodyContext.Agrees.refl (b : BodyContext) : b.Agrees b := ⟨rfl, rfl, rfl, rfl, rfl⟩

/-- The types resemble each other, and the slots of their shared fields stand for each other. -/
structure TypeDef.Same (S : Nat → Nat → Prop) (d d' : TypeDef) : Prop where
  resembles : d.Resembles d'
  slots : List.Forall₂ (fun f f' => S f.slot f'.slot) d.statics d'.statics

structure Typed.Same (F S : Nat → Nat → Prop) (v v' : Typed) : Prop where
  type : v.type = v'.type
  expr : v.expr.Same F S v'.expr

structure Arg.Same (F S : Nat → Nat → Prop) (view : Span → Span) (a a' : Arg) : Prop where
  type : a.type = a'.type
  expr : a.expr.Same F S a'.expr
  span : a'.span = view a.span

/-- Under the same name, methods at the same places that resemble each other one by one. -/
structure MethodGroup.Same (F S : Nat → Nat → Prop) (g g' : MethodGroup) : Prop where
  name : g.name = g'.name
  receiver : Option.Rel (BoundExpr.Same F S) g.receiver g'.receiver
  candidates : List.Forall₂ (fun x y => x.1 = y.1 ∧ x.2.Resembles y.2) g.candidates g'.candidates
  dispatch : g.dispatch = g'.dispatch

inductive Resolved.Same (F S : Nat → Nat → Prop) : Resolved → Resolved → Prop
  | value {e e' : BoundExpr} (t : Ty) (he : e.Same F S e') :
      Resolved.Same F S (.value e t) (.value e' t)
  | place {p p' : Place} (t : Ty) (isReadonly : Bool) (hp : p.Same F S p') :
      Resolved.Same F S (.place p t isReadonly) (.place p' t isReadonly)
  | type (path : Path) : Resolved.Same F S (.type path) (.type path)
  | space (path : Path) : Resolved.Same F S (.space path) (.space path)
  | methods {g g' : MethodGroup} (hg : g.Same F S g') : Resolved.Same F S (.methods g) (.methods g')

/-- What a simple name means as a local or as a registered variable. -/
def Bind.variableNamed (name : String) : Bind (Option Resolved) := do
  match (← body).scopes.lookup name with
  | some b => return some (.ofBinding b)
  | none => registered name

/-- Two runs of the binder with different lookups. `state` relates the states at a depth of scopes, `frame`
and `static` tell which slots stand for each other, and `declares` at which depths locals may be
declared. -/
structure Accord (l l' : NameLookup) where
  state : Nat → BindState → BindState → Prop
  frame : Nat → Nat → Prop
  static : Nat → Nat → Prop
  view : Span → Span
  known : TypeContext → Prop
  declares : Nat → Prop
  steady : ∀ n, Steady l l' view known (state n)
  body : ∀ n s t, state n s t → s.body.Agrees t.body
  known_ctx : ∀ n s t, state n s t → known s.body.ctx
  types : ∀ n s t, state n s t → ∀ p,
    Option.Rel (TypeDef.Same static) (s.image.typeDef? p) (t.image.typeDef? p)
  variableNamed : ∀ n name, Parallel (state n) (Option.Rel (Resolved.Same frame static))
    (Bind.variableNamed name) (Bind.variableNamed name)
  push : ∀ n s t kind, state n s t → state (n + 1)
    { s with body := { s.body with scopes := s.body.scopes.push kind } }
    { t with body := { t.body with scopes := t.body.scopes.push kind } }
  pop : ∀ n s t, state (n + 1) s t → state n
    { s with body := { s.body with scopes := s.body.scopes.pop } }
    { t with body := { t.body with scopes := t.body.scopes.pop } }
  inner : ∀ n, declares (n + 1)
  define : ∀ n name type isReadonly, declares n → Parallel (state n) frame
    (Bind.defineLocal name type isReadonly) (Bind.defineLocal (name.relocate view) type isReadonly)

theorem TypeDef.Same.refl {S : Nat → Nat → Prop} (hS : ∀ i, S i i) (d : TypeDef) : d.Same S d :=
  ⟨rfl, List.forall₂_same.mpr fun f _ => hS f.slot⟩

theorem Resolved.Same.ofTyped {F S : Nat → Nat → Prop} {v v' : Typed} (h : v.Same F S v') :
    (Bind.ofTyped v).Same F S (Bind.ofTyped v') := by
  unfold Bind.ofTyped
  rw [h.type]
  exact .value _ h.expr

theorem Resolved.Same.ofEntity {F S : Nat → Nat → Prop} (e : Entity) :
    (Resolved.ofEntity e).Same F S (Resolved.ofEntity e) := by
  cases e with
  | space path => exact .space path
  | type path => exact .type path

theorem Resolved.Same.ofBinding {F S : Nat → Nat → Prop} (hF : ∀ i, F i i) (hS : ∀ i, S i i)
    (b : Binding) : (Resolved.ofBinding b).Same F S (Resolved.ofBinding b) := by
  cases b with
  | frame slot t isReadonly => exact .place _ _ (.frame (hF slot))
  | _ slot t isReadonly => exact .place _ _ (.static (hS slot))

namespace TypeDef.Same

variable {F S : Nat → Nat → Prop} {d d' : TypeDef}

/-- A shared field is found on both sides or on neither. -/
theorem ofStatic (h : d.Same S d') (name : String) :
    Option.Rel (Resolved.Same F S) ((d.static? name).map .ofStatic) ((d'.static? name).map .ofStatic) := by
  have hstatics : List.Forall₂ (fun f f' : StaticField => f.Resembles f' ∧ S f.slot f'.slot) d.statics
      d'.statics := by
    have hresembles := h.resembles.statics
    have hslots := h.slots
    generalize d.statics = fs at hresembles hslots ⊢
    generalize d'.statics = fs' at hresembles hslots ⊢
    induction hresembles with
    | nil => exact .nil
    | cons hf _ ih =>
      cases hslots with
      | cons hslot hrest => exact .cons ⟨hf, hslot⟩ (ih hrest)
  have hrel := rel_find? (p := fun f => f.name == name) (q := fun f => f.name == name)
    (fun f f' hf => by rw [hf.1.name]) hstatics
  unfold static?
  generalize d.statics.find? _ = f? at hrel ⊢
  generalize d'.statics.find? _ = f'? at hrel ⊢
  cases hrel with
  | none => exact .none
  | some hf =>
    obtain ⟨hf, hslot⟩ := hf
    refine .some ?_
    unfold Resolved.ofStatic
    rw [hf.type, hf.isReadonly]
    exact .place _ _ (.static hslot)

end TypeDef.Same

namespace Bind

section Types

variable {l l' : NameLookup} {view : Span → Span} {known : TypeContext → Prop}
  {R : BindState → BindState → Prop} (h : Steady l l' view known R) {α β : Type} {A : α → β → Prop}
include h

theorem report_parallel (p : Problem) (span : Span) :
    Parallel R (fun _ _ => True) (report p span) (report p (view span)) :=
  .modify fun s t hst => h.issue s t p span hst

theorem refuse_parallel (p : Problem) (span : Span) :
    Parallel R A (refuse p span) (refuse p (view span)) :=
  (report_parallel h p span).andThen .fail

theorem image_parallel : Parallel R (fun im im' => im.lookup = im'.lookup) image image := .gets h.lookup

theorem lookupQualified_parallel {ctx : TypeContext} (hctx : known ctx) (q : QualifiedName) :
    Parallel R Eq (@lookupQualified l ctx q) (@lookupQualified l' ctx (q.relocate view)) := by
  have hdescend : ∀ {im im' : Image}, im.lookup = im'.lookup → ∀ (names : List String) (e : Entity),
      descend im e names = descend im' e names := by
    intro im im' hlookup names
    induction names with
    | nil => exact fun _ => rfl
    | cons name names ih =>
      intro e
      simp only [descend, Image.child_of_lookup hlookup, ih]
  unfold lookupQualified
  rw [QualifiedName.relocate_segments]
  cases q.segments with
  | nil => exact .pure rfl
  | cons first rest =>
    refine (h.find ctx first hctx).bind fun e? _ he => ?_
    subst he
    cases e? with
    | none => exact .pure rfl
    | some e => exact (image_parallel h).bind fun im im' hlookup => .pure (hdescend hlookup rest e)

theorem resolveType_parallel {ctx : TypeContext} (hctx : known ctx) (ref : TypeRef) :
    Parallel R Eq (@resolveType l ctx ref) (@resolveType l' ctx (ref.relocate view)) := by
  obtain ⟨type, span⟩ := ref
  unfold resolveType TypeRef.relocate TypeExpr.relocate
  cases type with
  | infer => exact refuse_parallel h _ _
  | named name =>
    refine (lookupQualified_parallel h hctx name).bind fun e? _ he => ?_
    subst he
    dsimp only
    rw [QualifiedName.relocate_text]
    rcases e? with _ | path | path
    · exact refuse_parallel h _ _
    · exact refuse_parallel h _ _
    · exact .pure rfl
  | _ => exact .pure rfl

theorem resolveValueType_parallel {ctx : TypeContext} (hctx : known ctx) (ref : TypeRef) :
    Parallel R Eq (@resolveValueType l ctx ref) (@resolveValueType l' ctx (ref.relocate view)) := by
  unfold resolveValueType
  refine (resolveType_parallel h hctx ref).bind fun t _ ht => ?_
  subst ht
  exact .ite Iff.rfl (refuse_parallel h _ _) (.pure rfl)

end Types

end Bind

end Chunkwise
