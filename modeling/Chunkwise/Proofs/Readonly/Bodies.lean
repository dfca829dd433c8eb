import Chunkwise.Proofs.Binder.Stages
import Chunkwise.Proofs.Readonly.Host

/-!
The third stage of a chunk of declarations puts code into the declared types. `Upholds` follows it: as
long as there is no issue, whatever guard covers the state permits all code that is in the types.
-/
namespace Chunkwise

open Attempt

theorem Attempt.Triple.and {σ α : Type} {P P' E E' : σ → Prop} {p : Attempt σ α}
    {Q Q' : α → σ → Prop} (h : Triple P p Q E) (h' : Triple P' p Q' E') :
    Triple (fun s => P s ∧ P' s) p (fun a s => Q a s ∧ Q' a s) fun s => E s ∧ E' s := by
  intro s hs
  have hq := h s hs.1
  have hq' := h' s hs.2
  revert hq hq'
  rcases p s with ⟨_ | a, s'⟩
  · exact fun he he' => ⟨he, he'⟩
  · exact fun hq hq' => ⟨hq, hq'⟩

theorem Attempt.Yields.all {σ α ι : Type} [Nonempty ι] {I : σ → Prop} {p : Attempt σ α}
    {Q : ι → α → Prop} (h : ∀ i, Yields I p (Q i)) : Yields I p fun a => ∀ i, Q i a := by
  intro s hs
  have hq := fun i => h i s hs
  obtain ⟨i₀⟩ := ‹Nonempty ι›
  revert hq
  rcases p s with ⟨_ | a, s'⟩
  · exact fun hq => hq i₀
  · exact fun hq => ⟨(hq i₀).1, fun i => (hq i).2⟩

theorem Guard.Covers.earlier {g : Guard} {s s' : BindState} (h : g.Covers s')
    (himage : s.image.Grows s'.image)
    (hstore : ∀ i t, s.store.Offers false i t → s'.store.Offers false i t)
    (hregistry : s'.registry = s.registry) (hcreated : s'.newVariables = s.newVariables) :
    g.Covers s where
  image := himage.trans h.image
  slots i t hi := h.slots i t (hstore i t hi)
  statics i hi := h.statics i (himage.marks hi)
  registry := hregistry ▸ h.registry
  created := hcreated ▸ h.created

theorem Guard.Covers.aside {g : Guard} {s s' : BindState} (h : g.Covers s') (ha : s.Aside s') :
    g.Covers s :=
  h.earlier (ha.image ▸ .refl _) (fun _ _ => by rw [ha.store]; exact id) ha.registry ha.newVariables

theorem Guard.Covers.toAside {g : Guard} {s s' : BindState} (h : g.Covers s) (ha : s.Aside s') :
    g.Covers s' :=
  h.earlier (ha.image ▸ .refl _) (fun _ _ => by rw [ha.store]; exact id) ha.registry.symm
    ha.newVariables.symm

namespace BindState

variable {old : Session} {ds : List DeclaredType} {s s' : BindState}

theorem Ongoing.body_stands (h : s.Ongoing old ds) {context : BodyContext} {returns : Ty}
    (hself : ∀ p, context.thisType = some p →
      ∃ d, s.image.typeDef? p = some d ∧ d.hasObjects = true)
    (hreturns : context.returns = some returns) (hscopes : context.scopes = .ofKind .method) :
    ({ s with body := context } : BindState).Stands ⟨context.thisType, context.inConstructor, []⟩ := by
  have hempty : ∀ scope ∈ context.scopes.all, scope.bindings = [] := by
    rw [hscopes]
    intro scope hscope
    obtain rfl : scope = ⟨.method, []⟩ := by simpa [Scopes.all, Scopes.ofKind] using hscope
    rfl
  refine ⟨⟨rfl, rfl, h.usings, h.sigs, hself, fun i t hi => (h.statics i t hi).1.lenient,
    fun hhost => ?_, fun scope hscope x hx => ?_⟩, h.cache, rfl, rfl, ?_,
    fun scope hscope x hx => ?_⟩
  · simp [BodyContext.isHost, hreturns] at hhost
  · simp [hempty scope hscope] at hx
  · simp [hscopes, Scopes.ofKind]
  · simp [hempty scope hscope] at hx

end BindState

namespace Bind

variable {old : Session} {ds : List DeclaredType} {s s₀ s₁ : BindState}

/-- Parameters of different names are the first locals. -/
theorem defineParams_stands : ∀ (ps : List (String × Ty)) {w : Site} {s : BindState}, s.Stands w →
    (∀ q ∈ ps, s.body.scopes.definedHere q.1 = false ∧ s.image.Knows q.2) →
    (ps.map Prod.fst).Nodup →
    Triple (· = s) (Attempt.forAll (fun (p : String × Ty) =>
        updateScopes fun s => (s.defineLocal p.1 p.2 false).2) ps)
      (fun _ s' => s'.Stands { w with frame := w.frame ++ ps.map fun q => (q.2, false) } ∧
        s.Beside s' ∧ s'.issues = s.issues) fun _ => False
  | [], w, s, hw, _, _ => Triple.pure fun s' hs => by
      subst hs
      exact ⟨by simpa using hw, .refl s', rfl⟩
  | q :: ps, w, s, hw, hps, hnodup => by
    obtain ⟨hnew, hk⟩ := hps q (by simp)
    obtain ⟨hnotin, hrest⟩ := List.nodup_cons.mp hnodup
    have hw₁ := hw.define hk q.1 false
    have hb₁ := s.beside_withScopes { s.body.scopes.insert q.1 (.frame s.body.scopes.nextSlot q.2 false)
      with nextSlot := s.body.scopes.nextSlot + 1 }
    generalize hs₁ : s.withScopes _ = s₁ at hw₁ hb₁
    have hps₁ : ∀ r ∈ ps, s₁.body.scopes.definedHere r.1 = false ∧ s₁.image.Knows r.2 := by
      intro r hr
      obtain ⟨hr₁, hr₂⟩ := hps r (List.mem_cons_of_mem _ hr)
      have hne : (r.1 == q.1) = false := by
        refine beq_false_of_ne fun heq => hnotin ?_
        exact heq ▸ List.mem_map_of_mem hr
      refine ⟨?_, hb₁.image ▸ hr₂⟩
      rw [← hs₁]
      exact (Scopes.definedHere_insert _ _ _ _).trans (by rw [hne, hr₁]; rfl)
    unfold Attempt.forAll
    refine Triple.bind (Q := fun _ s' => s' = s₁) ?_ fun _ => ?_
    · rintro s' rfl
      rw [← hs₁]
      change s'.withScopes (s'.body.scopes.defineLocal q.1 q.2 false).2 = _
      simp [Scopes.defineLocal, hnew]
    · refine Triple.bind (defineParams_stands ps hw₁ hps₁ hrest) fun _ => Triple.pure ?_
      rintro s' ⟨hw', hb', hissues⟩
      refine ⟨by simpa [Site.push] using hw', hb₁.trans hb', ?_⟩
      rw [hissues, ← hs₁]
      rfl

theorem stmts_obeys (ss : List Stmt) : Obeys (fun _ => True) (stmts ss) fun g w bs vs w' =>
    vs = [] ∧ Threads g.Permits w (Stmt.written ss) bs w' :=
  Obeys.ofGuarded (stmts_sure ss) fun _ _ hg _ w => stmts_guarded hg.image ss w

theorem methodCode_permits (h : s.Ongoing old ds) (context : BodyContext) {m : Method}
    (hself : ∀ p, context.thisType = some p →
      ∃ d, s.image.typeDef? p = some d ∧ d.hasObjects = true)
    (hsig : m.SigOk s.image) {returns : Ty} (hreturns : context.returns = some returns)
    (hscopes : context.scopes = .ofKind .method) (body : Block) (span : Span) :
    Triple s.Aside (methodCode context m body span) (fun code s' => s'.issues.hasAny = false →
      ∀ g : Guard, g.Covers s' →
        g.PermitsBody (.ofMethod context.thisType context.inConstructor m) body code)
      fun _ => True := by
  intro s₁ ha
  let s₂ : BindState := { s₁ with body := context }
  have hstands : s₂.Stands ⟨context.thisType, context.inConstructor, []⟩ :=
    (h.aside ha).body_stands (by rw [ha.image]; exact hself) hreturns hscopes
  have hparams : ∀ q ∈ m.params, s₂.body.scopes.definedHere q.1 = false ∧ s₂.image.Knows q.2 :=
    fun q hq => ⟨by simp [s₂, hscopes, Scopes.definedHere, Scopes.ofKind, Scopes.innermost],
      ha.image ▸ hsig.params _ (List.mem_map_of_mem hq)⟩
  unfold methodCode
  refine Triple.bind (Q := fun _ s' => s' = s₂) (fun s' hs' => by subst hs'; rfl) (fun _ => ?_) s₁ rfl
  refine Triple.bind ((defineParams_stands m.params hstands hparams hsig.names).mono
    (fun _ hs => hs) (fun _ _ hs => hs) fun _ hs => hs.elim) fun _ => ?_
  rintro s₃ ⟨hstands₃, -, -⟩
  refine Triple.bind ((stmts_obeys body.stmts).clean trivial hstands₃) (fun code => ?_) s₃ rfl
  intro s₄ hcode
  by_cases hend : m.returns ≠ .void ∧ BoundStmt.allComplete code = true
  · rw [if_pos hend]
    trivial
  · rw [if_neg hend]
    intro hclean g hg
    obtain ⟨-, hobeys⟩ := hcode hclean
    obtain ⟨-, -, w', rfl, hthreads⟩ := hobeys g hg
    refine ⟨w', ?_⟩
    rw [Site.ofMethod, Method.paramTypes, List.map_map]
    exact hthreads

/-- Code that sets a static field to a value that writes only what the guard allows. -/
def PermittedStatic (g : Guard) (b : BoundStmt) : Prop :=
  ∃ slot e, b = .expr (.assign (.static slot) e) ∧ g.Safe .top e

/-- An initial value writes only what the guard allows where it stands. -/
def FieldInit.Permitted (g : Guard) (p : Path) : FieldInit → Prop
  | .static code => PermittedStatic g code
  | .ofObject _ e => g.Safe ⟨some p, false, []⟩ e

section Fields

variable (h : s.Ongoing old ds) {x : DeclaredType}

include h

theorem convertedIn_permitted {α : Type} {context : BodyContext} {returns t : Ty}
    (hself : ∀ p, context.thisType = some p →
      ∃ d, s.image.typeDef? p = some d ∧ d.hasObjects = true)
    (hreturns : context.returns = some returns) (hscopes : context.scopes = .ofKind .method)
    (init : Expr) {f : BoundExpr → Bind α} {Q : α → Prop}
    (hf : ∀ e, (∀ g : Guard, g.Covers s → g.Safe ⟨context.thisType, context.inConstructor, []⟩ e) →
      Yields s.Aside (f e) Q) :
    Yields s.Aside (do
      setBody context
      let e ← converted t init
      f e) Q := by
  refine inBody_aside (fun s' ha hbody => ?_) (fun s' ha => ha.cache) hf
  have hstands := (h.aside ha).body_stands (by rw [ha.image]; exact hself) hreturns hscopes
  rw [← hbody] at hstands ⊢
  have hguard : ∀ g : {g : Guard // g.Covers s}, Yields s'.Quiet (converted t init)
      (g.1.Safe ⟨s'.body.thisType, s'.body.inConstructor, []⟩) := fun g =>
    (converted_sound hstands.fits ((g.2.toAside ha).opens hstands) t init).mono fun _ he => he.2
  have : Nonempty {g : Guard // g.Covers s} := ⟨.all s, Guard.all_covers s⟩
  exact (Yields.all hguard).mono fun e he g hg => he ⟨g, hg⟩

theorem staticInit_permitted (name : String) (init : Expr) : Yields s.Aside (staticInit x name init)
    fun i => ∀ g : Guard, g.Covers s → i.Permitted g x.path := by
  unfold staticInit
  refine (typeDef_aside x.path).bind fun d _ => ?_
  refine (Yields.ofOption (Q := fun _ => True) fun _ _ => trivial).bind fun f _ => ?_
  refine convertedIn_permitted h (fun p hp => by cases hp) rfl rfl init fun e he => Yields.pure ?_
  exact fun g hg => ⟨f.slot, e, rfl, he g hg⟩

theorem objectInit_permitted (hx : ∀ d, s.image.typeDef? x.path = some d → d.hasObjects = true)
    (name : String) (init : Expr) : Yields s.Aside (objectInit x name init)
    fun i => ∀ g : Guard, g.Covers s → i.Permitted g x.path := by
  unfold objectInit
  refine (typeDef_aside x.path).bind fun d hd => ?_
  refine (Yields.ofOption (Q := fun f => d.field? name = some f) fun _ hf => hf).bind
    fun ⟨i, f⟩ hf => ?_
  refine convertedIn_permitted h (fun p hp => ?_) rfl rfl init fun e he => Yields.pure he
  cases hp
  have hd' := Image.typeDef?_of_field hd hf
  exact ⟨d, hd', hx d hd'⟩

theorem fieldInits_permitted (hx : ∀ d, s.image.typeDef? x.path = some d → d.hasObjects = true)
    (ms : List MemberDecl) : Yields s.Aside (fieldInits x ms)
    fun is => ∀ i ∈ is, ∀ g : Guard, g.Covers s → i.Permitted g x.path :=
  fieldInits_each (staticInit_permitted h) (objectInit_permitted h hx) ms

end Fields

/-- As long as there is no issue there was none before, and whatever guard covers the state covered the
one before and permits the code of static fields and all code that is in these types. -/
def Upholds (xs : List DeclaredType) (bs : List BoundStmt) (s₀ s : BindState) : Prop :=
  s.issues.hasAny = false → s₀.issues.hasAny = false ∧ ∀ g : Guard, g.Covers s → g.Covers s₀ ∧
    (∀ x ∈ xs, ∀ t, s.image.typeDef? x.path = some t → g.PermitsType x t) ∧
    ∀ b ∈ bs, PermittedStatic g b

theorem Upholds.aside {xs : List DeclaredType} {bs : List BoundStmt} {s' : BindState}
    (h : Upholds xs bs s₀ s) (ha : s.Aside s') : Upholds xs bs s₀ s' := by
  intro hclean
  have hclean' : s.issues.hasAny = false := by
    by_contra hany
    rw [ha.issues (by simpa using hany)] at hclean
    cases hclean
  obtain ⟨hstart, hg⟩ := h hclean'
  refine ⟨hstart, fun g hcovers => ?_⟩
  rw [ha.image]
  exact hg g (hcovers.aside ha)

theorem Upholds.place {x : DeclaredType} {bs : List BoundStmt} (h : Upholds [x] bs s₀ s) {d : TypeDef}
    (hd : s.image.typeDef? x.path = some d) {f : TypeDef → TypeDef} (herased : (f d).erased = d.erased)
    (hf : s.issues.hasAny = false → ∀ g : Guard, g.Covers s → g.PermitsType x d →
      g.PermitsType x (f d)) :
    Upholds [x] bs s₀ { s with image := s.image.updateType x.path f } := by
  intro hclean
  obtain ⟨hstart, hg⟩ := h hclean
  refine ⟨hstart, fun g hcovers => ?_⟩
  have hgrows : s.image.Grows (s.image.updateType x.path f) :=
    Image.grows_updateType _ _ fun e he => by
      obtain rfl : d = e := by simpa [hd] using he
      exact herased
  have hearlier : g.Covers s := hcovers.earlier hgrows (fun _ _ => id) rfl rfl
  obtain ⟨hstart, htypes, hstatics⟩ := hg g hearlier
  refine ⟨hstart, fun y hy t ht => ?_, hstatics⟩
  obtain rfl := List.mem_singleton.mp hy
  rw [Image.typeDef?_updateType, if_pos rfl, hd] at ht
  obtain rfl := Option.some.inj ht
  exact hf hclean g hearlier (htypes y hy d hd)

end Bind

namespace Guard.PermitsType

open Chunkwise.Bind

variable {g : Guard} {x : DeclaredType} {d : TypeDef} {ms : List (MethodDecl × Nat)}
  {cs : List (ConstructorDecl × Nat)} {i : Nat} {m : Method} {code : Code}

theorem ofLacks (h : d.Lacks ms cs) : g.PermitsType x d where
  inits := by simp [h.inits]
  methods i m code hm hcode := by
    rcases h.methods i m hm with hb | ⟨hb, -⟩ <;> rw [hb] at hcode <;> cases hcode
  constructors i m code hm hcode := by
    rw [(h.constructors i m hm).1] at hcode
    cases hcode

theorem withMethod (h : g.PermitsType x d) (hm : d.methods[i]? = some m) {decl : MethodDecl}
    {block : Block} (hdecl : (x.members.filterMap MemberDecl.method?)[i]? = some decl)
    (hbody : decl.body = some block)
    (hcode : g.PermitsBody (.ofMethod (m.self x.path) false m) block code) :
    g.PermitsType x { d with methods := withBody d.methods i code } where
  inits := h.inits
  methods j n code' hn hcode' := by
    rw [withBody_getElem?] at hn
    split at hn
    · next hij =>
      subst hij
      rw [hm] at hn
      cases hn
      cases hcode'
      exact ⟨decl, block, hdecl, hbody, hcode⟩
    · exact h.methods j n code' hn hcode'
  constructors := h.constructors

theorem withConstructor (h : g.PermitsType x d) (hm : d.constructors[i]? = some m)
    {decl : ConstructorDecl} (hdecl : (x.members.filterMap MemberDecl.constructor?)[i]? = some decl)
    (hcode : g.PermitsBody (.ofMethod (some x.path) true m) decl.body code) :
    g.PermitsType x { d with constructors := withBody d.constructors i code } where
  inits := h.inits
  methods := h.methods
  constructors j n code' hn hcode' := by
    rw [withBody_getElem?] at hn
    split at hn
    · next hij =>
      subst hij
      rw [hm] at hn
      cases hn
      cases hcode'
      exact ⟨decl, hdecl, hcode⟩
    · exact h.constructors j n code' hn hcode'

end Guard.PermitsType

namespace Bind

variable {old : Session} {ds : List DeclaredType} {s s₀ : BindState} {x : DeclaredType}
  {bs : List BoundStmt} {ms : List (MethodDecl × Nat)} {cs : List (ConstructorDecl × Nat)}

theorem bindMethod_upholds (m : MethodDecl × Nat)
    (hdecl : (x.members.filterMap MemberDecl.method?)[m.2]? = some m.1) :
    Triple (fun s => s.Filling old ds s₀ x (m :: ms) cs ∧ Upholds [x] bs s₀ s) (bindMethod x m)
      (fun _ s => Upholds [x] bs s₀ s) (fun s => Upholds [x] bs s₀ s) := by
  rintro s ⟨hs, hup⟩
  obtain ⟨d, hd, ho, hawaits⟩ := hs.awaits
  unfold bindMethod
  cases hbody : m.1.body with
  | none => exact hup
  | some block =>
    refine Triple.bind (Q := fun t s' => s' = s ∧ t = d) (E := Upholds [x] bs s₀) (fun s' hs' => ?_)
      (fun t => ?_) s rfl
    · subst hs'
      exact ⟨rfl, by simp [hd]⟩
    rintro s' ⟨rfl, rfl⟩
    cases hm : t.methods[m.2]? with
    | none => exact hup
    | some method =>
      have hsig := (hs.ongoing.sigs _ t hd).methods method (List.mem_of_getElem? hm)
      have hself : ∀ p, method.self x.path = some p →
          ∃ d, s'.image.typeDef? p = some d ∧ d.hasObjects = true := fun p hp => by
        unfold Method.self at hp
        split at hp
        · cases hp
        · cases hp
          exact ⟨t, hd, ho⟩
      let context : BodyContext := .method x.inside (method.self x.path) method.returns
      have haside := methodCode_aside hs.ongoing context hself hsig rfl rfl block m.1.name.span
      have hpermits := methodCode_permits hs.ongoing context hself hsig rfl rfl block m.1.name.span
      refine Triple.bind ((haside.and hpermits).mono (fun _ h => h) (fun _ _ h => h) ?_)
        (fun code => ?_) s' ⟨.refl hs.ongoing.cache, .refl hs.ongoing.cache⟩
      · exact fun s₁ hs₁ => hup.aside hs₁.1.1
      · rintro s₁ ⟨⟨ha, -⟩, hcode⟩
        have hd₁ : s₁.image.typeDef? x.path = some t := ha.image ▸ hd
        refine (hup.aside ha).place hd₁ ?_ fun hclean g hg ht => ?_
        · refine TypeDef.erased_withMethod code fun n hn => ?_
          exact hawaits.listed m List.mem_cons_self (by rw [hbody]; rfl) n hn
        · exact ht.withMethod hm hdecl hbody (hcode hclean g hg)

/-- The code of a constructor that is put in its place. -/
theorem bindConstructor_upholds (c : ConstructorDecl × Nat)
    (hdecl : (x.members.filterMap MemberDecl.constructor?)[c.2]? = some c.1) :
    Triple (fun s => s.Filling old ds s₀ x ms (c :: cs) ∧ Upholds [x] bs s₀ s) (bindConstructor x c)
      (fun _ s => Upholds [x] bs s₀ s) (fun s => Upholds [x] bs s₀ s) := by
  rintro s ⟨hs, hup⟩
  obtain ⟨d, hd, ho, -⟩ := hs.awaits
  unfold bindConstructor
  refine Triple.bind (Q := fun t s' => s' = s ∧ t = d) (E := Upholds [x] bs s₀) (fun s' hs' => ?_)
    (fun t => ?_) s rfl
  · subst hs'
    exact ⟨rfl, by simp [hd]⟩
  rintro s' ⟨rfl, rfl⟩
  cases hm : t.constructors[c.2]? with
  | none => exact hup
  | some method =>
    have hsigs := (hs.ongoing.sigs _ t hd).constructors
    obtain ⟨hsig, hvoid, -⟩ := hsigs method (List.mem_of_getElem? hm)
    have hself : ∀ p, some x.path = some p →
        ∃ d, s'.image.typeDef? p = some d ∧ d.hasObjects = true := by
      rintro _ ⟨⟩
      exact ⟨t, hd, ho⟩
    let context : BodyContext :=
      { BodyContext.method x.inside (some x.path) .void with inConstructor := true }
    have haside := methodCode_aside hs.ongoing context hself hsig (by rw [hvoid]; rfl) rfl c.1.body
      c.1.name.span
    have hreturns : context.returns = some .void := rfl
    have hpermits := methodCode_permits hs.ongoing context hself hsig hreturns rfl c.1.body c.1.name.span
    refine Triple.bind ((haside.and hpermits).mono (fun _ h => h) (fun _ _ h => h) ?_)
      (fun code => ?_) s' ⟨.refl hs.ongoing.cache, .refl hs.ongoing.cache⟩
    · exact fun s₁ hs₁ => hup.aside hs₁.1.1
    · rintro s₁ ⟨⟨ha, -⟩, hcode⟩
      have hd₁ : s₁.image.typeDef? x.path = some t := ha.image ▸ hd
      refine (hup.aside ha).place hd₁ ?_ fun hclean g hg ht => ?_
      · exact TypeDef.erased_withConstructor code fun n hn => (hsigs n (List.mem_of_getElem? hn)).2.2
      · exact ht.withConstructor hm hdecl (hcode hclean g hg)

/-- Methods and constructors are filled in, and what is filled in is permitted. -/
def Following (old : Session) (ds : List DeclaredType) (s₀ : BindState) (x : DeclaredType)
    (bs : List BoundStmt) (ms : List (MethodDecl × Nat)) (cs : List (ConstructorDecl × Nat))
    (s : BindState) : Prop :=
  s.Filling old ds s₀ x ms cs ∧ Upholds [x] bs s₀ s

theorem bindMethod_following (hx : x ∈ ds) (m : MethodDecl × Nat)
    (hdecl : (x.members.filterMap MemberDecl.method?)[m.2]? = some m.1) :
    Triple (Following old ds s₀ x bs (m :: ms) cs) (bindMethod x m)
      (fun _ => Following old ds s₀ x bs ms cs) (Following old ds s₀ x bs ms cs) := by
  have hfilling : Triple (fun s => s.Filling old ds s₀ x (m :: ms) cs) (bindMethod x m) _ _ :=
    bindMethod_filling hx m
  exact (hfilling.and (bindMethod_upholds m hdecl)).mono (fun s hs => ⟨hs.1, hs⟩) (fun _ _ h => h)
    fun _ h => h

theorem bindConstructor_following (hx : x ∈ ds) (c : ConstructorDecl × Nat)
    (hdecl : (x.members.filterMap MemberDecl.constructor?)[c.2]? = some c.1) :
    Triple (Following old ds s₀ x bs ms (c :: cs)) (bindConstructor x c)
      (fun _ => Following old ds s₀ x bs ms cs) (Following old ds s₀ x bs ms cs) := by
  have hfilling : Triple (fun s => s.Filling old ds s₀ x ms (c :: cs)) (bindConstructor x c) _ _ :=
    bindConstructor_filling hx c
  exact (hfilling.and (bindConstructor_upholds c hdecl)).mono (fun s hs => ⟨hs.1, hs⟩)
    (fun _ _ h => h) fun _ h => h

theorem bindMethods_following (hx : x ∈ ds) : ∀ ms : List (MethodDecl × Nat),
    (∀ m ∈ ms, (x.members.filterMap MemberDecl.method?)[m.2]? = some m.1) →
    Triple (Following old ds s₀ x bs ms cs) (Attempt.forAll (bindMethod x) ms)
      (fun _ => Following old ds s₀ x bs [] cs) fun _ => False
  | [], _ => Triple.pure fun _ h => h
  | m :: ms, hdecls => by
    unfold Attempt.forAll
    refine Triple.bind (Q := fun _ => Following old ds s₀ x bs ms cs)
      (Triple.optional (bindMethod_following hx m (hdecls m List.mem_cons_self))) fun _ => ?_
    exact Triple.bind (bindMethods_following hx ms fun n hn => hdecls n (List.mem_cons_of_mem m hn))
      fun _ => Triple.pure fun _ h => h

theorem bindConstructors_following (hx : x ∈ ds) : ∀ cs : List (ConstructorDecl × Nat),
    (∀ c ∈ cs, (x.members.filterMap MemberDecl.constructor?)[c.2]? = some c.1) →
    Triple (Following old ds s₀ x bs ms cs) (Attempt.forAll (bindConstructor x) cs)
      (fun _ => Following old ds s₀ x bs ms []) fun _ => False
  | [], _ => Triple.pure fun _ h => h
  | c :: cs, hdecls => by
    unfold Attempt.forAll
    refine Triple.bind (Q := fun _ => Following old ds s₀ x bs ms cs)
      (Triple.optional (bindConstructor_following hx c (hdecls c List.mem_cons_self))) fun _ => ?_
    exact Triple.bind
      (bindConstructors_following hx cs fun n hn => hdecls n (List.mem_cons_of_mem c hn))
      fun _ => Triple.pure fun _ h => h

theorem bindFieldInits_upholds {d : TypeDef} (h : s₀.Ongoing old ds)
    (hd : s₀.image.typeDef? x.path = some d) (ho : d.hasObjects = true) (hlacks : d.Lacks ms cs) :
    Triple (· = s₀) (bindFieldInits x) (fun bs s => Upholds [x] bs s₀ s) fun _ => False := by
  rintro s rfl
  have hobjects : ∀ e, s.image.typeDef? x.path = some e → e.hasObjects = true := fun e he => by
    obtain rfl : d = e := by simpa [hd] using he
    exact ho
  unfold bindFieldInits
  refine Triple.bind (Total.triple (fieldInits_total x _) (fieldInits_permitted h hobjects x.members))
    (fun is => ?_) s (.refl h.cache)
  rintro s₁ ⟨ha, his⟩
  have hd₁ : s₁.image.typeDef? x.path = some d := ha.image ▸ hd
  have hup : Upholds [x] (is.filterMap FieldInit.static?) s s := by
    refine fun hclean => ⟨hclean, fun g hg => ⟨hg, fun y hy t ht => ?_, fun b hb => ?_⟩⟩
    · obtain rfl := List.mem_singleton.mp hy
      obtain rfl : d = t := by simpa [hd] using ht
      exact .ofLacks hlacks
    · obtain ⟨i, hi, hib⟩ := List.mem_filterMap.mp hb
      cases i with
      | static code =>
        cases hib
        exact his _ hi g hg
      | ofObject _ _ => cases hib
  refine (hup.aside ha).place hd₁ rfl fun _ g hg ht => ⟨fun y hy => ?_, ht.methods, ht.constructors⟩
  obtain ⟨i, hi, hiy⟩ := List.mem_filterMap.mp hy
  cases i with
  | static code => cases hiy
  | ofObject index value =>
    cases hiy
    exact his _ hi g (hg.aside ha)

/-- The declarations of methods and constructors that wait for their bodies, with their positions. -/
structure PopulatedType.Listed (p : PopulatedType) : Prop where
  methods : ∀ m ∈ p.methods, (p.decl.members.filterMap MemberDecl.method?)[m.2]? = some m.1
  constructors : ∀ c ∈ p.constructors,
    (p.decl.members.filterMap MemberDecl.constructor?)[c.2]? = some c.1

theorem listed_populated (d : DeclaredType) : PopulatedType.Listed d.populated where
  methods m hm := by
    have hget := List.mem_zipIdx_iff_getElem?.mp hm
    rwa [outline_eq] at hget
  constructors c hc := by
    have hget := List.mem_zipIdx_iff_getElem?.mp hc
    rwa [outline_eq] at hget

theorem bindBodies_upholds {p : PopulatedType} (h : s₀.Ongoing old ds) (hx : p.decl ∈ ds)
    (hwaits : Waits s₀.image p.decl p) (hlisted : PopulatedType.Listed p) :
    Triple (· = s₀) (bindBodies p) (fun bs s => Upholds [p.decl] bs s₀ s) fun _ => False := by
  obtain ⟨-, d, hd, hlacks⟩ := hwaits
  obtain ⟨-, d', hd', hhead⟩ := h.found _ hx
  obtain rfl : d = d' := by simpa [hd] using hd'
  have hkind : d.kind = p.decl.head.kind := hhead.kind
  unfold bindBodies
  split
  · refine Triple.pure ?_
    rintro s rfl hclean
    refine ⟨hclean, fun g hg => ⟨hg, fun y hy t ht => ?_, by simp⟩⟩
    obtain rfl := List.mem_singleton.mp hy
    obtain rfl : d = t := by simpa [hd] using ht
    exact .ofLacks hlacks
  · next hyes =>
    have hobjects : d.hasObjects = true := by
      rw [← hkind] at hyes
      cases hk : d.kind <;> simp_all [TypeDef.hasObjects]
    have hstart : Triple (· = s₀) (bindFieldInits p.decl)
        (fun bs => Following old ds s₀ p.decl bs p.methods p.constructors) fun _ => False := by
      have hfilling : Triple (fun s => s.Filling old ds s₀ p.decl p.methods p.constructors)
        (bindFieldInits p.decl) _ _ := bindFieldInits_filling hx
      refine (hfilling.and (bindFieldInits_upholds h hd hobjects hlacks)).mono ?_
        (fun _ _ hs => ⟨hs.1.1, hs.2⟩) fun _ hs => hs.1
      rintro s rfl
      exact ⟨⟨h, .refl _, .refl _, fun _ _ => rfl, id, d, hd, hobjects, hlacks.awaits⟩, rfl⟩
    refine Triple.bind hstart fun bs => ?_
    refine Triple.bind (bindMethods_following hx p.methods hlisted.methods) fun _ => ?_
    refine Triple.bind (bindConstructors_following hx p.constructors hlisted.constructors) fun _ => ?_
    exact Triple.pure fun s hs => hs.2

/-- One type after the other. What the types behind have become leaves the first as it is. -/
theorem Upholds.cons {xs : List DeclaredType} {s₁ s₂ : BindState} {bs bs' : List BoundStmt}
    (h : Upholds [x] bs s₀ s₁) (h' : Upholds xs bs' s₁ s₂)
    (hframe : s₂.image.typeDef? x.path = s₁.image.typeDef? x.path) :
    Upholds (x :: xs) (bs ++ bs') s₀ s₂ := by
  intro hclean
  obtain ⟨hclean₁, hrest⟩ := h' hclean
  obtain ⟨hclean₀, hfirst⟩ := h hclean₁
  refine ⟨hclean₀, fun g hg => ?_⟩
  obtain ⟨hg₁, htypes, hstatics⟩ := hrest g hg
  obtain ⟨hg₀, htype, hstatic⟩ := hfirst g hg₁
  refine ⟨hg₀, fun y hy t ht => ?_, fun b hb => (List.mem_append.mp hb).elim (hstatic b) (hstatics b)⟩
  rcases List.mem_cons.mp hy with rfl | hy
  · exact htype y List.mem_cons_self t (hframe ▸ ht)
  · exact htypes y hy t ht

theorem bindEach_upholds (xs : List DeclaredType) : ∀ {ps : List PopulatedType} {s₀ : BindState},
    (∀ x ∈ xs, x ∈ ds) → (xs.map DeclaredType.path).Nodup → s₀.Ongoing old ds →
    List.Forall₂ (Waits s₀.image) xs ps → (∀ p ∈ ps, PopulatedType.Listed p) →
    Triple (· = s₀) (Attempt.forAll bindBodies ps)
      (fun out s => Upholds xs (out.filterMap id).flatten s₀ s) fun _ => False := by
  induction xs with
  | nil =>
    rintro _ s₀ - - - ⟨⟩ -
    refine Triple.pure ?_
    rintro s rfl hclean
    exact ⟨hclean, fun g hg => ⟨hg, by simp, by simp⟩⟩
  | cons x xs ih =>
    rintro _ s₀ hds hnodup h (_ | ⟨hp, hps⟩) hlisted
    rename_i p ps
    obtain rfl : p.decl = x := hp.1
    obtain ⟨hnotin, hrest⟩ := List.nodup_cons.mp hnodup
    have hne : ∀ y ∈ xs, p.decl.path ≠ y.path := fun y hy heq =>
      hnotin (heq ▸ List.mem_map_of_mem hy)
    have hin : p.decl ∈ ds := hds p.decl List.mem_cons_self
    have hfirst := (bindBodies_filled h hin hp).and
      (bindBodies_upholds h hin hp (hlisted p List.mem_cons_self))
    unfold Attempt.forAll
    refine Triple.bind (Q := fun bs? s => ∃ bs, bs? = some bs ∧ Filled old ds [p.decl] s₀ s bs ∧
        Upholds [p.decl] bs s₀ s) (Triple.optional (hfirst.mono (fun _ h => ⟨h, h⟩)
          (fun bs _ hbs => ⟨bs, rfl, hbs⟩) fun _ hf => hf.1.elim)) ?_
    rintro bs? s₁ ⟨bs, rfl, hs₁, hup₁⟩
    have hps₁ : List.Forall₂ (Waits s₁.image) xs ps := by
      refine ((List.forall₂_and_left _ _).mpr ⟨hne, hps⟩).imp fun y q hq => ?_
      obtain ⟨hy, hq⟩ := hq
      unfold Waits at hq ⊢
      rwa [hs₁.frame y.path (by simpa using hy.symm)]
    have hds' : ∀ y ∈ xs, y ∈ ds := fun y hy => hds y (List.mem_cons_of_mem _ hy)
    have hothers := (bindEach_filled xs hds' hrest hs₁.ongoing hps₁).and
      (ih hds' hrest hs₁.ongoing hps₁ fun q hq => hlisted q (List.mem_cons_of_mem _ hq))
    refine Triple.bind (hothers.mono (fun _ h => ⟨h, h⟩) (fun _ _ h => h) fun _ hf => hf.1)
      (fun out => Triple.pure fun s hs => ?_) s₁ rfl
    exact hup₁.cons hs.2 (hs.1.frame _ hne)

theorem bindAllBodies_upholds {xs : List DeclaredType} {ps : List PopulatedType}
    (hds : ∀ x ∈ xs, x ∈ ds) (hnodup : (xs.map DeclaredType.path).Nodup) (h : s₀.Ongoing old ds)
    (hps : List.Forall₂ (Waits s₀.image) xs ps) (hlisted : ∀ p ∈ ps, PopulatedType.Listed p) :
    Triple (· = s₀) (bindAllBodies ps) (fun bs s => Upholds xs bs s₀ s) fun _ => False := by
  have hkept : Triple (· = s₀) (Attempt.keepSome bindBodies ps)
      (fun out s => Upholds xs out.flatten s₀ s) fun _ => False :=
    Triple.bind (bindEach_upholds xs hds hnodup h hps hlisted) fun _ => Triple.pure fun _ hs => hs
  exact Triple.bind hkept fun _ => Triple.pure fun _ hs => hs

/-- Types that are populated without an issue are listed with all their methods and constructors. -/
theorem Stages.listed {unit : DeclarationUnit} {code : Code} {ps : List PopulatedType}
    {s₁ s₂ s₃ b : BindState} (h : Stages old unit code ds ps s₁ s₂ s₃ b)
    (hplain : ∀ d ∈ unit.types, d.Plain) :
    ds = unit.types ∧ ∀ p ∈ ps, PopulatedType.Listed p := by
  have hdeclare := (declareMembers_careful unit).ends (.start old.image old.registry old.store) trivial
  rw [h.declare] at hdeclare
  obtain ⟨rfl, hdistinct, -⟩ := hdeclare (BindState.count_eq_zero h.declareClean)
  have hpopulate := populateTypes_turns hdistinct hplain
  have hcount₃ : s₃.count = 0 := BindState.count_eq_zero h.populateClean
  have hbare : ∀ d ∈ unit.types, s₂.image.typeDef? d.path = some d.bare := fun d hd => by
    rw [h.directed.2]
    exact (h.declares.gains.found d hd).2
  have hgrows := (hpopulate.grows s₂).count
  have hends := hpopulate.ends s₂ ⟨hbare, trivial⟩
  rw [h.populate] at hgrows hends
  have hcount₂ : s₂.count = 0 := Nat.eq_zero_of_le_zero (hcount₃ ▸ hgrows)
  have hlaid := hends (hcount₃.trans hcount₂.symm)
  have hall : ∀ (xs : List DeclaredType) (ps : List PopulatedType),
      List.Forall₂ (fun d p => ∃ t, s₃.image.typeDef? d.path = some t ∧ Laid d d.outline p t) xs ps →
      ∀ p ∈ ps, PopulatedType.Listed p := by
    intro xs ps hxs
    induction hxs with
    | nil => simp
    | cons hp _ ih =>
      obtain ⟨t, -, ht⟩ := hp
      rw [List.forall_mem_cons, ht.listed]
      exact ⟨listed_populated _, ih⟩
  exact ⟨rfl, hall _ ps hlaid⟩

end Bind

namespace Session

variable {old : Session} {unit : DeclarationUnit} {code : Code} {b : BindState}

/-- What a chunk of declarations becomes is permitted by whatever guard covers the session after it. -/
theorem declarationUnit_permits (hold : old.Valid) (hplain : ∀ d ∈ unit.types, d.Plain)
    (run : Bind.declarationUnit unit old.bindStart = (some code, b))
    (clean : b.issues.hasAny = false) {g : Guard} (hg : g.Covers b) :
    g.Covers old.bindStart ∧
      (∀ x ∈ unit.types, ∀ t, b.image.typeDef? x.path = some t → g.PermitsType x t) ∧
      g.PermitsStatics unit code := by
  obtain ⟨ds, ps, s₁, s₂, s₃, hstages⟩ := Bind.exists_stages hold run
  obtain ⟨rfl, hlisted⟩ := hstages.listed hplain
  obtain ⟨h₃, -, hwaits⟩ := hstages.populated
  have hup := Triple.of_run
    (Bind.bindAllBodies_upholds (fun _ hx => hx) hstages.distinct h₃ hwaits hlisted) rfl hstages.bodies
  obtain ⟨-, hobeys⟩ := hup clean
  obtain ⟨hg₃, htypes, hstatics⟩ := hobeys g hg
  refine ⟨hg₃.earlier h₃.grows (fun i t ho => h₃.store.offers ho) h₃.registry h₃.newVariables, htypes,
    ?_, fun p e he => ?_⟩
  · have hends := (Bind.declarationUnit_careful hplain).ends old.bindStart rfl
    rw [run] at hends
    obtain ⟨parts, hparts, hbody⟩ := (hends (BindState.count_eq_zero clean)).types
    refine ⟨parts, hparts.imp fun d part ⟨t, ht, _, hset⟩ => ?_, hbody⟩
    obtain ⟨t', ht', herased⟩ := hg.image d.path t ht
    refine ⟨t', ht', hset.imp fun v c hv => ?_⟩
    obtain ⟨init, be, f, hinit, hf, hshows, hc⟩ := hv
    refine ⟨init, be, f, hinit, ?_, hshows, hc⟩
    rwa [TypeDef.static?, TypeDef.statics_of_erased herased]
  · obtain ⟨slot, value, heq, hsafe⟩ := hstatics _ he
    cases heq
    exact hsafe

end Session

end Chunkwise
