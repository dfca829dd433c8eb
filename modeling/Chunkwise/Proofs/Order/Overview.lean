import Chunkwise.Proofs.Cache.Contract
import Chunkwise.Proofs.Faithful.Contract
import Chunkwise.Proofs.Image.Lookup
import Chunkwise.Proofs.Order.Unplaced
import Chunkwise.Proofs.Parallel.Stmt

/-!
Code sees of the state what lies where, which directives are in force and some of each type: its kind while
types are being populated, all of its outline later. `Abreast` relates two states in which code sees the
same, and `Within` two points in one body. They differ in the slots of shared fields, so bound code differs
in these.
-/
namespace Chunkwise

/-- The relation survives an issue on both sides, whatever the issues are, and the lookup of a name, and on
both sides everything lies at the same places. -/
structure Lenient [NameLookup] (R : BindState → BindState → Prop) : Prop where
  issue : ∀ s t i j, R s t → R { s with issues := s.issues.push i } { t with issues := t.issues.push j }
  find : ∀ ctx name, Attempt.Parallel R Eq (NameLookup.find ctx name) (NameLookup.find ctx name)
  lookup : ∀ s t, R s t → s.image.lookup = t.image.lookup

namespace Lenient

variable [l : NameLookup] {R : BindState → BindState → Prop} (h : Lenient R)
include h

theorem steady : Steady l l (fun _ => default) (fun _ => True) R where
  issue s t p span := h.issue s t ⟨p, span⟩ ⟨p, default⟩
  find ctx name _ := h.find ctx name
  lookup := h.lookup

theorem report_parallel {p q : Problem} {a b : Span} :
    Attempt.Parallel R (fun _ _ => True) (Bind.report p a) (Bind.report q b) :=
  .modify fun s t hst => h.issue s t ⟨p, a⟩ ⟨q, b⟩ hst

theorem refuse_parallel {α β : Type} {A : α → β → Prop} {p q : Problem} {a b : Span} :
    Attempt.Parallel R A (Bind.refuse p a) (Bind.refuse q b) :=
  h.report_parallel.andThen .fail

theorem lookupQualified_parallel (ctx : TypeContext) (q : QualifiedName) :
    Attempt.Parallel R Eq (Bind.lookupQualified ctx q) (Bind.lookupQualified ctx q.bare) :=
  Bind.lookupQualified_parallel h.steady trivial q

theorem resolveType_parallel (ctx : TypeContext) (ref : TypeRef) :
    Attempt.Parallel R Eq (Bind.resolveType ctx ref) (Bind.resolveType ctx ref.bare) :=
  Bind.resolveType_parallel h.steady trivial ref

theorem resolveValueType_parallel (ctx : TypeContext) (ref : TypeRef) :
    Attempt.Parallel R Eq (Bind.resolveValueType ctx ref) (Bind.resolveValueType ctx ref.bare) :=
  Bind.resolveValueType_parallel h.steady trivial ref

end Lenient

/-- What code sees of a state, with `γ` for what it sees of a type. -/
structure Overview (γ : Type) where
  lookup : Path → Option Entity
  types : Path → Option γ
  usings : List Using

variable {γ : Type} {seen : TypeDef → γ}

def BindState.overview (seen : TypeDef → γ) (s : BindState) : Overview γ :=
  ⟨s.image.lookup, fun p => (s.image.typeDef? p).map seen, s.allUsings⟩

/-- Code sees the same in both states, and there are as many new issues in one as in the other since
there were `m` and `n`. -/
structure Abreast (seen : TypeDef → γ) (v : Overview γ) (m n : Nat) (s t : BindState) : Prop where
  left : s.overview seen = v
  right : t.overview seen = v
  count : ∃ k, s.count = m + k ∧ t.count = n + k

/-- The two states are besides in one body, which is not the one of a chunk of statements. -/
structure Within (v : Overview TypeDef) (m n : Nat) (s t : BindState) : Prop
    extends Abreast TypeDef.outline v m n s t where
  body : s.body = t.body
  inner : s.body.isHost = false

namespace Abreast

variable {v : Overview γ} {m n : Nat} {s t s' t' : BindState}

theorem start (h : s.overview seen = v) (h' : t.overview seen = v) :
    Abreast seen v s.count t.count s t := ⟨h, h', 0, rfl, rfl⟩

theorem overview (h : Abreast seen v m n s t) : s.overview seen = t.overview seen :=
  h.left.trans h.right.symm

theorem lookup (h : Abreast seen v m n s t) : s.image.lookup = t.image.lookup :=
  congrArg Overview.lookup h.overview

theorem types (h : Abreast seen v m n s t) (p : Path) :
    (s.image.typeDef? p).map seen = (t.image.typeDef? p).map seen :=
  congrFun (congrArg Overview.types h.overview) p

theorem resembles {v : Overview TypeDef} (h : Abreast TypeDef.outline v m n s t) :
    s.image.Resembles t.image := ⟨h.lookup, h.types⟩

theorem lookupUncached (h : Abreast seen v m n s t) (ctx : TypeContext) (name : String) :
    s.lookupUncached ctx name = t.lookupUncached ctx name :=
  BindState.lookupUncached_of_lookup h.lookup (congrArg Overview.usings h.overview) ctx name

theorem keep (h : Abreast seen v m n s t) (hs : s'.overview seen = s.overview seen)
    (ht : t'.overview seen = t.overview seen) (hissues : s'.issues = s.issues)
    (hissues' : t'.issues = t.issues) : Abreast seen v m n s' t' where
  left := hs.trans h.left
  right := ht.trans h.right
  count := by
    rw [BindState.count, BindState.count, hissues, hissues']
    exact h.count

theorem push (h : Abreast seen v m n s t) (i j : Issue) : Abreast seen v m n
    { s with issues := s.issues.push i } { t with issues := t.issues.push j } where
  left := h.left
  right := h.right
  count := by
    obtain ⟨k, hs, ht⟩ := h.count
    exact ⟨k + 1, congrArg (· + 1) hs, congrArg (· + 1) ht⟩

end Abreast

theorem Within.keep {v : Overview TypeDef} {m n : Nat} {s t s' t' : BindState} (h : Within v m n s t)
    (hs : s'.overview TypeDef.outline = s.overview TypeDef.outline)
    (ht : t'.overview TypeDef.outline = t.overview TypeDef.outline) (hissues : s'.issues = s.issues)
    (hissues' : t'.issues = t.issues) (hbody : s'.body = t'.body) (hinner : s'.body.isHost = false) :
    Within v m n s' t' :=
  ⟨h.toAbreast.keep hs ht hissues hissues', hbody, hinner⟩

/-- An edit of a type shows only as far as it changes what is seen of the type. -/
theorem BindState.overview_updateType (s : BindState) (p : Path) {f : TypeDef → TypeDef}
    (hf : ∀ d, seen (f d) = seen d) :
    ({ s with image := s.image.updateType p f } : BindState).overview seen = s.overview seen := by
  have hlookup : (s.image.updateType p f).lookup = s.image.lookup :=
    funext fun q => Image.lookup_congr (Image.updateType_shape _ _ _) q
  have htypes : (fun q => ((s.image.updateType p f).typeDef? q).map seen) =
      fun q => (s.image.typeDef? q).map seen := by
    funext q
    rw [Image.typeDef?_updateType]
    split
    · rw [Option.map_map]
      exact congrArg (Option.map · _) (funext hf)
    · rfl
  unfold overview
  rw [hlookup, htypes]
  rfl

namespace Bind

theorem lookupEntity_cache (ctx : TypeContext) (name : String) (s : BindState) :
    ∃ cache, (lookupEntity ctx name s).2 = { s with cache := cache } := by
  unfold lookupEntity
  cases s.cache.lookup (BindState.cacheKey ctx name) with
  | some e => exact ⟨s.cache, rfl⟩
  | none =>
    cases s.lookupUncached ctx name with
    | some e => exact ⟨_, rfl⟩
    | none => exact ⟨s.cache, rfl⟩

/-- Looking up anew finds the same in states in which names denote the same. -/
theorem lookupAnew_parallel {R : BindState → BindState → Prop}
    (hdenote : ∀ s t, R s t → ∀ ctx name, s.lookupUncached ctx name = t.lookupUncached ctx name)
    (hcache : ∀ s t c c', R s t → R { s with cache := c } { t with cache := c' })
    (ctx : TypeContext) (name : String) :
    Attempt.Parallel R Eq (lookupAnew.find ctx name) (lookupAnew.find ctx name) := by
  intro s t hst
  obtain ⟨c, hs⟩ := lookupEntity_cache ctx name s
  obtain ⟨c', ht⟩ := lookupEntity_cache ctx name t
  refine ⟨.some (hdenote s t hst ctx name), ?_⟩
  change R (lookupEntity ctx name s).2 (lookupEntity ctx name t).2
  rw [hs, ht]
  exact hcache s t c c' hst

end Bind

theorem Abreast.lenient (v : Overview γ) (m n : Nat) :
    @Lenient Bind.lookupAnew (Abreast seen v m n) :=
  letI := Bind.lookupAnew
  { issue := fun _ _ i j h => h.push i j
    find := Bind.lookupAnew_parallel (fun _ _ h => h.lookupUncached)
      fun _ _ _ _ h => h.keep rfl rfl rfl rfl
    lookup := fun _ _ h => h.lookup }

theorem Within.lenient (v : Overview TypeDef) (m n : Nat) : @Lenient Bind.lookupAnew (Within v m n) :=
  letI := Bind.lookupAnew
  { issue := fun _ _ i j h => ⟨h.toAbreast.push i j, h.body, h.inner⟩
    find := Bind.lookupAnew_parallel (fun _ _ h => h.toAbreast.lookupUncached)
      fun _ _ _ _ h => h.keep rfl rfl rfl rfl h.body h.inner
    lookup := fun _ _ h => h.toAbreast.lookup }

namespace Within

open Attempt

variable {v : Overview TypeDef} {m n : Nat}

/-- The slots of shared fields may be any. -/
theorem typeDef_same {s t : BindState} (h : Within v m n s t) (p : Path) :
    Option.Rel (TypeDef.Same fun _ _ => True) (s.image.typeDef? p) (t.image.typeDef? p) := by
  have hrel := h.toAbreast.resembles.typeDef? p
  generalize s.image.typeDef? p = d? at hrel ⊢
  generalize t.image.typeDef? p = e? at hrel ⊢
  cases hrel with
  | none => exact .none
  | some hde => exact .some ⟨hde, hde.statics.imp fun _ _ _ => trivial⟩

theorem withScopes {s t : BindState} (h : Within v m n s t) (f : Scopes → Scopes) : Within v m n
    { s with body := { s.body with scopes := f s.body.scopes } }
    { t with body := { t.body with scopes := f t.body.scopes } } :=
  h.keep rfl rfl rfl rfl (by simp only [h.body]) h.inner

theorem updateScopes_parallel (f : Scopes → Scopes) :
    Parallel (Within v m n) (fun _ _ => True) (Bind.updateScopes f) (Bind.updateScopes f) :=
  .modify fun _ _ hst => hst.withScopes f

theorem body_parallel :
    Parallel (Within v m n) (fun b b' => b = b' ∧ b.isHost = false) Bind.body Bind.body :=
  .gets fun _ _ h => ⟨h.body, h.inner⟩

theorem variableNamed_parallel (name : String) :
    Parallel (Within v m n) (Option.Rel (Resolved.Same Eq fun _ _ => True)) (Bind.variableNamed name)
      (Bind.variableNamed name) := by
  unfold Bind.variableNamed
  refine body_parallel.bind ?_
  rintro b _ ⟨rfl, -⟩
  cases b.scopes.lookup name with
  | some binding => exact .pure (.some (.ofBinding (fun _ => rfl) (fun _ => trivial) binding))
  | none =>
    intro s t h
    have hinner : t.body.isHost = false := h.body ▸ h.inner
    dsimp only
    unfold Bind.registered
    rw [h.inner, hinner]
    exact ⟨.some .none, h⟩

theorem defineLocal_parallel [NameLookup] (h : Lenient (Within v m n)) (name : Ident) (type : Ty)
    (isReadonly : Bool) : Parallel (Within v m n) Eq (Bind.defineLocal name type isReadonly)
      (Bind.defineLocal (name.relocate fun _ => default) type isReadonly) := by
  unfold Bind.defineLocal
  refine body_parallel.bind ?_
  rintro b _ ⟨rfl, -⟩
  rw [Ident.relocate_name]
  rcases b.scopes.defineLocal name.name type isReadonly with ⟨_ | slot, scopes⟩
  · exact h.refuse_parallel
  · exact (updateScopes_parallel _).andThen (.pure rfl)

def accord [l : NameLookup] (h : Lenient (Within v m n)) : Accord l l where
  state _ := Within v m n
  frame := Eq
  static _ _ := True
  view _ := default
  known _ := True
  declares _ := True
  steady _ := h.steady
  body _ s _ hst := hst.body ▸ .refl s.body
  known_ctx _ _ _ _ := trivial
  types _ _ _ hst := hst.typeDef_same
  variableNamed _ := variableNamed_parallel
  push _ _ _ kind hst := hst.withScopes (·.push kind)
  pop _ _ _ hst := hst.withScopes Scopes.pop
  inner _ := trivial
  define _ name type isReadonly _ := defineLocal_parallel h name type isReadonly

end Within

namespace Bind

open Attempt

variable {v : Overview TypeDef} {m n : Nat}

theorem typeDef_abreast (path : Path) :
    Parallel (Abreast TypeDef.outline v m n) TypeDef.Resembles (typeDef path) (typeDef path) := by
  refine .gets fun s t hst => ?_
  have hrel := hst.resembles.typeDef? path
  generalize s.image.typeDef? path = d? at hrel ⊢
  generalize t.image.typeDef? path = e? at hrel ⊢
  cases hrel with
  | none => rfl
  | some hde => exact hde

end Bind

end Chunkwise
