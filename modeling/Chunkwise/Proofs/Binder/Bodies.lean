import Chunkwise.Proofs.Binder.Filling
import Chunkwise.Proofs.Binder.Populate
import Chunkwise.Proofs.Binder.Stmt

/-!
The third stage fills in the bodies that the declared types lack. A body is typed by its signature
in the image at that moment and stays typed as the image grows. A body that cannot be bound leaves
an issue behind.
-/
namespace Chunkwise

open Attempt

/-- The context of a body with these parts. -/
def bodyContext (im : Image) (self : Option Path) (returns : Ty) : CodeContext :=
  ⟨im, im.StaticSlot, self, 0, some returns, none⟩

namespace BindState

variable {old : Session} {ds : List DeclaredType} {s s' : BindState}

theorem Moved.aside (h : s.Moved s') (hcache : ∀ x ∈ s'.cache, x.2.Known s'.image) : s.Aside s' :=
  ⟨h.image, h.undo, h.registry, h.store, h.usings, h.newVariables, h.declared, h.issues, hcache⟩

theorem Aside.refl (h : ∀ x ∈ s.cache, x.2.Known s.image) : s.Aside s := (Quiet.refl h).aside

/-- The state in which a body of a declared type begins. -/
theorem Ongoing.body_at (h : s.Ongoing old ds) {im : Image} (himage : s.image = im) {returns : Ty}
    (hself : ∀ p, s.body.thisType = some p → ∃ d, im.typeDef? p = some d ∧ d.hasObjects = true)
    (hreturns : im.Knows returns) (hresult : s.body.returns = some returns)
    (hscopes : s.body.scopes = .ofKind .method) :
    s.At (bodyContext im s.body.thisType returns) .none := by
  subst himage
  refine ⟨⟨rfl, rfl, h.usings, h.sigs, hself, fun _ _ hs => hs, fun hhost => ?_, ?_⟩,
    h.cache, hresult.symm, fun t ht => ?_, fun i t hi => by cases hi⟩
  · simp [BodyContext.isHost, hresult] at hhost
  · rw [hscopes]
    intro scope hscope x hx
    obtain rfl : scope = ⟨.method, []⟩ := by simpa [Scopes.all, Scopes.ofKind] using hscope
    cases hx
  · cases ht
    exact hreturns

theorem Aside.withBody (h : s.Aside s') (body : BodyContext) : s.Aside { s' with body } :=
  ⟨h.image, h.undo, h.registry, h.store, h.usings, h.newVariables, h.declared, h.issues, h.cache⟩

end BindState

theorem Locals.ofParams_concat (ts : List Ty) (t : Ty) :
    Locals.ofParams (ts ++ [t]) = (Locals.ofParams ts).set ts.length t := by
  funext i
  simp only [ofParams, set]
  rcases Nat.lt_trichotomy i ts.length with h | rfl | h
  · rw [List.getElem?_append_left h, if_neg (Nat.ne_of_lt h)]
  · simp
  · rw [if_neg (Nat.ne_of_gt h), List.getElem?_eq_none (by simp; omega),
      List.getElem?_eq_none (by omega)]

namespace Bind

variable {α : Type} {old : Session} {ds : List DeclaredType} {s s₀ : BindState} {c : CodeContext}

/-- Parameters of different names take the first frame slots in order. -/
theorem defineParams_at : ∀ (ps : List (String × Ty)) {ts : List Ty} {s : BindState},
    s.At c (.ofParams ts) → s.body.scopes.nextSlot = ts.length →
    (∀ q ∈ ps, s.body.scopes.definedHere q.1 = false ∧ c.image.Knows q.2) →
    (ps.map Prod.fst).Nodup →
    Triple (· = s) (Attempt.forAll (fun (p : String × Ty) =>
        updateScopes fun s => (s.defineLocal p.1 p.2 false).2) ps)
      (fun _ s' => s.Moved s' ∧ s'.At c (.ofParams (ts ++ ps.map Prod.snd)) ∧
        s'.body.scopes.nextSlot = ts.length + ps.length) fun _ => False
  | [], ts, s, hat, hnext, _, _ => Triple.pure fun s' hs => by
      subst hs
      exact ⟨(BindState.Quiet.refl hat.cache).moved, by simpa using hat, by simpa using hnext⟩
  | q :: ps, ts, s, hat, hnext, hps, hnodup => by
    obtain ⟨hnew, hk⟩ := hps q (by simp)
    obtain ⟨hnotin, hrest⟩ := List.nodup_cons.mp hnodup
    obtain ⟨hm, hat₁⟩ := addLocal_at hat hk q.1 false
    generalize hs₁ : s.withScopes _ = s₁ at hm hat₁
    rw [hnext, ← Locals.ofParams_concat] at hat₁
    have hnext₁ : s₁.body.scopes.nextSlot = (ts ++ [q.2]).length := by
      rw [← hs₁]
      simp [BindState.withScopes, hnext]
    have hps₁ : ∀ r ∈ ps, s₁.body.scopes.definedHere r.1 = false ∧ c.image.Knows r.2 := by
      intro r hr
      obtain ⟨hr₁, hr₂⟩ := hps r (List.mem_cons_of_mem _ hr)
      have hne : (r.1 == q.1) = false := by
        refine beq_false_of_ne fun heq => hnotin ?_
        exact heq ▸ List.mem_map_of_mem hr
      refine ⟨?_, hr₂⟩
      rw [← hs₁]
      exact (Scopes.definedHere_insert _ _ _ _).trans (by rw [hne, hr₁]; rfl)
    unfold Attempt.forAll
    refine Triple.bind (Q := fun _ s' => s' = s₁) ?_ fun _ => ?_
    · rintro s' rfl
      rw [← hs₁]
      change s'.withScopes (s'.body.scopes.defineLocal q.1 q.2 false).2 = _
      simp [Scopes.defineLocal, hnew]
    · refine Triple.bind (defineParams_at ps hat₁ hnext₁ hps₁ hrest) fun _ =>
        Triple.pure fun s' hs' => ⟨hm.trans hs'.1, by simpa using hs'.2.1, ?_⟩
      rw [hs'.2.2]
      simp
      omega

/-- A bound body is typed by its signature, and one that cannot be bound has left an issue. -/
theorem methodCode_aside (h : s.Ongoing old ds) (context : BodyContext) {m : Method}
    (hself : ∀ p, context.thisType = some p →
      ∃ d, s.image.typeDef? p = some d ∧ d.hasObjects = true)
    (hsig : m.SigOk s.image) (hreturns : context.returns = some m.returns)
    (hscopes : context.scopes = .ofKind .method) (body : Block) (span : Span) :
    Triple (s.Aside) (methodCode context m body span)
      (fun code s' => s.Aside s' ∧
        code.WellTyped s.image context.thisType m.paramTypes m.returns)
      (fun s' => s.Aside s' ∧ s'.issues.hasAny = true) := by
  intro s₁ ha
  -- the body begins in a state that differs from `s` by its context only
  let s₂ : BindState := { s₁ with body := context }
  have ha₂ : s.Aside s₂ := ha.withBody context
  have hat₂ : s₂.At (bodyContext s.image context.thisType m.returns) (.ofParams []) :=
    (h.aside ha₂).body_at ha.image hself hsig.returns hreturns hscopes
  have hparams : ∀ q ∈ m.params, s₂.body.scopes.definedHere q.1 = false ∧ s.image.Knows q.2 :=
    fun q hq => ⟨by simp [s₂, hscopes, Scopes.definedHere, Scopes.ofKind, Scopes.innermost],
      hsig.params _ (List.mem_map_of_mem hq)⟩
  have hloop : s₂.body.scopes.inLoop = false := by
    simp [s₂, hscopes, Scopes.inLoop, Scopes.all, Scopes.ofKind]
  have hnext : s₂.body.scopes.nextSlot = 0 := by simp [s₂, hscopes, Scopes.ofKind]
  unfold methodCode
  refine Triple.bind (Q := fun _ s' => s' = s₂) (fun s' hs' => by subst hs'; rfl) (fun _ => ?_) s₁ rfl
  refine Triple.bind (Total.triple (Total.forAll _)
    (defineParams_at m.params hat₂ hnext hparams hsig.names)) fun _ => ?_
  rintro s₃ ⟨hm₃, hat₃, hnext₃⟩
  refine Triple.bind ((stmts_scoped body.stmts _).triple (stmts_total _) hat₃)
    (fun code => ?_) s₃ rfl
  rintro s₄ ⟨hm₄, Δ, hle, hat₄, hcode⟩
  have ha₄ : s.Aside s₄ := ha₂.trans ((hm₃.trans hm₄).aside hat₄.cache)
  by_cases hend : m.returns ≠ .void ∧ BoundStmt.allComplete code = true
  · rw [if_pos hend]
    have hq := refuse_quiet (α := Code) (Q := fun _ => False) (.missingReturn m.owner m.name) span s₄
      (.refl ha₄.cache)
    exact ⟨ha₄.trans hq.aside, hasAny_push _ _⟩
  · rw [if_neg hend]
    refine ⟨ha₄, ?_, fun hvoid => ?_, Δ, ?_⟩
    · change m.paramTypes.length ≤ s₄.body.scopes.nextSlot
      have := hm₄.scopes.nextSlot
      simp only [Method.paramTypes, List.length_map]
      simp only [List.length_nil, Nat.zero_add] at hnext₃
      omega
    · simpa [hvoid] using hend
    · rw [hm₃.scopes.inLoop, hloop] at hcode
      exact hcode _ (Nat.le_refl _)

/-- Code that sets static fields, typed at the top of a unit. -/
def StaticCode (im : Image) (b : BoundStmt) : Prop :=
  ∃ slot e t, b = .expr (.assign (.static slot) e) ∧ im.StaticSlot slot t ∧
    e.Fits ⟨im, im.StaticSlot, .none, none⟩ t

theorem StaticCode.grow {im im' : Image} {b : BoundStmt} (h : StaticCode im b)
    (hg : im.Grows im') : StaticCode im' b := by
  obtain ⟨slot, e, t, rfl, hs, he⟩ := h
  refine ⟨slot, e, t, rfl, hg.staticSlot hs, BoundExpr.Fits.weaken ?_ he⟩
  exact ⟨hg, .refl _, rfl, fun _ _ _ hs => hg.staticSlot hs⟩

def FieldInit.Ok (im : Image) (p : Path) : FieldInit → Prop
  | .static code => StaticCode im code
  | .ofObject i e => ∃ d f, im.typeDef? p = some d ∧ d.fields[i]? = some f ∧
      e.Fits ⟨im, im.StaticSlot, .none, some p⟩ f.type

theorem inBody_aside {β : Type} {context : BodyContext} {p : Bind β} {f : β → Bind α}
    {P : β → Prop} {Q : α → Prop}
    (hp : ∀ s', s.Aside s' → s'.body = context → Yields s'.Quiet p P)
    (hcache : ∀ s', s.Aside s' → ∀ x ∈ s'.cache, x.2.Known s'.image)
    (hf : ∀ b, P b → Yields s.Aside (f b) Q) :
    Yields s.Aside (do
      setBody context
      let b ← p
      f b) Q := by
  intro s₁ ha
  have ha₂ : s.Aside { s₁ with body := context } := ha.withBody context
  have hquiet : Triple (· = { s₁ with body := context }) p (fun b s' => s.Aside s' ∧ P b) s.Aside := by
    rintro s' rfl
    exact Triple.mono (hp _ ha₂ rfl) (fun _ h => h) (fun _ _ h => ⟨ha₂.trans h.1.aside, h.2⟩)
      (fun _ h => ha₂.trans h.aside) _ (.refl (hcache _ ha₂))
  refine Triple.bind (Q := fun _ s' => s' = { s₁ with body := context })
    (fun s' hs' => by subst hs'; rfl) (fun _ => ?_) s₁ rfl
  exact Triple.bind hquiet fun b s' hs' => hf b hs'.2 s' hs'.1

theorem convertedIn_aside (h : s.Ongoing old ds) {context : BodyContext} {t : Ty}
    (hself : ∀ p, context.thisType = some p →
      ∃ d, s.image.typeDef? p = some d ∧ d.hasObjects = true)
    (hreturns : context.returns = some .void) (hscopes : context.scopes = .ofKind .method)
    (ht : s.image.Knows t) (e : Expr) {f : BoundExpr → Bind α} {Q : α → Prop}
    (hf : ∀ e, e.Fits ⟨s.image, s.image.StaticSlot, .none, context.thisType⟩ t →
      Yields s.Aside (f e) Q) :
    Yields s.Aside (do
      setBody context
      let e ← converted t e
      f e) Q := by
  refine inBody_aside (fun s' ha hbody => ?_) (fun s' ha => ha.cache) hf
  subst hbody
  have hvoid : s.image.Knows .void := trivial
  exact converted_ok ((h.aside ha).body_at ha.image hself hvoid hreturns hscopes).fits ht e

theorem typeDef_aside (p : Path) : Yields s.Aside (typeDef p) fun d =>
    d = (s.image.typeDef? p).getD (.bare .classKind false false) :=
  Yields.gets fun _ h => by rw [h.image]

theorem staticInit_aside (h : s.Ongoing old ds) (x : DeclaredType) (name : String) (init : Expr) :
    Yields s.Aside (staticInit x name init) fun i => i.Ok s.image x.path := by
  unfold staticInit
  refine (typeDef_aside x.path).bind fun d hd => ?_
  refine (Yields.ofOption (Q := fun f => d.static? name = some f) fun _ hf => hf).bind fun f hf => ?_
  have hd' := Image.typeDef?_of_static hd hf
  have hmem := List.mem_of_find?_eq_some hf
  refine convertedIn_aside h (fun p hp => by cases hp) rfl rfl
    ((h.sigs _ d hd').statics f hmem) init fun e he => Yields.pure ?_
  exact ⟨f.slot, e, f.type, rfl, ⟨_, d, f, hd', hmem, rfl, rfl⟩, he⟩

theorem objectInit_aside (h : s.Ongoing old ds) {x : DeclaredType}
    (hx : ∀ d, s.image.typeDef? x.path = some d → d.hasObjects = true) (name : String)
    (init : Expr) : Yields s.Aside (objectInit x name init) fun i => i.Ok s.image x.path := by
  unfold objectInit
  refine (typeDef_aside x.path).bind fun d hd => ?_
  refine (Yields.ofOption (Q := fun f => d.field? name = some f) fun _ hf => hf).bind
    fun ⟨i, f⟩ hf => ?_
  have hd' := Image.typeDef?_of_field hd hf
  have hfield := TypeDef.field?_eq_some hf
  refine convertedIn_aside h (fun p hp => ?_) rfl rfl
    ((h.sigs _ d hd').fields f (List.mem_of_getElem? hfield)) init fun e he => Yields.pure ?_
  · cases hp
    exact ⟨d, hd', hx d hd'⟩
  · exact ⟨d, f, hd', hfield, he⟩

/-- What holds of each initial value holds of all that a type has. -/
theorem fieldInits_each {x : DeclaredType} {Q : FieldInit → Prop}
    (hstatic : ∀ name init, Yields s.Aside (staticInit x name init) Q)
    (hobject : ∀ name init, Yields s.Aside (objectInit x name init) Q) :
    ∀ ms : List MemberDecl, Yields s.Aside (fieldInits x ms) fun is => ∀ i ∈ is, Q i := by
  have hdeclarator : ∀ field v, Yields s.Aside (declaratorInit x field v) fun i? =>
      ∀ i, i? = some i → Q i := by
    intro field v
    unfold declaratorInit
    split
    · exact Yields.pure (by simp)
    · dsimp only
      split
      · refine (hstatic _ _).bind fun i hi => Yields.pure fun j hj => ?_
        cases hj
        exact hi
      · refine (hobject _ _).bind fun i hi => Yields.pure fun j hj => ?_
        cases hj
        exact hi
  intro ms
  induction ms with
  | nil => exact Yields.pure (by simp)
  | cons m ms ih =>
    cases m with
    | field f =>
      unfold fieldInits
      refine (Yields.keepSome fun v _ => hdeclarator f v).bind fun found hfound => ?_
      refine ih.bind fun more hmore => Yields.pure fun i hi => ?_
      rcases List.mem_append.mp hi with hi | hi
      · obtain ⟨i?, hin, rfl⟩ := List.mem_filterMap.mp hi
        exact hfound _ hin i rfl
      · exact hmore i hi
    | _ => exact ih

theorem fieldInits_aside (h : s.Ongoing old ds) {x : DeclaredType}
    (hx : ∀ d, s.image.typeDef? x.path = some d → d.hasObjects = true) (ms : List MemberDecl) :
    Yields s.Aside (fieldInits x ms) fun is => ∀ i ∈ is, i.Ok s.image x.path :=
  fieldInits_each (staticInit_aside h x) (objectInit_aside h hx) ms

theorem fieldInits_total (x : DeclaredType) : ∀ ms : List MemberDecl, Total (fieldInits x ms) := by
  intro ms
  induction ms with
  | nil => exact Total.pure
  | cons m ms ih =>
    cases m with
    | field f =>
      unfold fieldInits
      exact (Total.keepSome _).bind fun _ => ih.bind fun _ => Total.pure
    | _ => exact ih

/-- The initial values of objects are recorded, and those of static fields are code. -/
theorem bindFieldInits_filling {x : DeclaredType} (hx : x ∈ ds) {ms : List (MethodDecl × Nat)}
    {cs : List (ConstructorDecl × Nat)} :
    Triple (fun s => s.Filling old ds s₀ x ms cs) (bindFieldInits x)
      (fun bs s => s.Filling old ds s₀ x ms cs ∧ ∀ b ∈ bs, StaticCode s.image b)
      fun _ => False := by
  intro s hs
  obtain ⟨d, hd, ho, -⟩ := hs.awaits
  have hobjects : ∀ e, s.image.typeDef? x.path = some e → e.hasObjects = true := fun e he => by
    obtain rfl : d = e := by simpa [hd] using he
    exact ho
  unfold bindFieldInits
  refine Triple.bind (Total.triple (fieldInits_total x _)
    (fieldInits_aside hs.ongoing hobjects x.members)) (fun is => ?_) s (.refl hs.ongoing.cache)
  rintro s₁ ⟨ha, his⟩
  have hstep := (hs.aside ha).update hx (f := fun t => { t with
      inits := is.filterMap FieldInit.ofObject? }) fun e he hsig hawaits => ⟨rfl,
        hawaits.methods, hawaits.listed, hawaits.constructors, fun y hy => by
      obtain ⟨i, hi, hiy⟩ := List.mem_filterMap.mp hy
      cases i with
      | static code => cases hiy
      | ofObject index value =>
        cases hiy
        obtain ⟨e', f, he', hf, hfits⟩ := his _ hi
        rw [ha.image] at he ⊢
        obtain rfl : e = e' := by simpa [he] using he'
        exact ⟨f, hf, hfits⟩⟩
  refine ⟨hstep, fun b hb => ?_⟩
  obtain ⟨i, hi, hib⟩ := List.mem_filterMap.mp hb
  cases i with
  | static code =>
    cases hib
    have hcode : StaticCode s.image b := his _ hi
    rw [← ha.image] at hcode
    refine hcode.grow ?_
    exact Image.grows_updateType _ _ fun _ _ => rfl
  | ofObject _ _ => cases hib

variable {x : DeclaredType} {ms : List (MethodDecl × Nat)} {cs : List (ConstructorDecl × Nat)}

/-- The first method on the list has its body then, or there are issues. -/
theorem bindMethod_filling (hx : x ∈ ds) (m : MethodDecl × Nat) :
    Triple (fun s => s.Filling old ds s₀ x (m :: ms) cs) (bindMethod x m)
      (fun _ s => s.Filling old ds s₀ x ms cs) (fun s => s.Filling old ds s₀ x ms cs) := by
  intro s hs
  obtain ⟨d, hd, ho, hawaits⟩ := hs.awaits
  unfold bindMethod
  cases hbody : m.1.body with
  | none => exact hs.waitFor fun e _ he => he.skipMethod (.inr (.inl (by rw [hbody]; rfl)))
  | some block =>
    refine Triple.bind (Q := fun t s' => s' = s ∧ t = d) (E := fun s => s.Filling old ds s₀ x ms cs)
      (fun s' hs' => ?_) (fun t => ?_) s rfl
    · subst hs'
      exact ⟨rfl, by simp [hd]⟩
    rintro s' ⟨rfl, rfl⟩
    cases hm : t.methods[m.2]? with
    | none =>
      refine hs.waitFor fun e he hwait => hwait.skipMethod (.inr (.inr fun n hn => ?_))
      obtain rfl : t = e := by simpa [hd] using he
      rw [hm] at hn
      cases hn
    | some method =>
      have hsig := (hs.ongoing.sigs _ t hd).methods method (List.mem_of_getElem? hm)
      have hself : ∀ p, method.self x.path = some p →
          ∃ d, s'.image.typeDef? p = some d ∧ d.hasObjects = true := fun p hp => by
        unfold Method.self at hp
        split at hp
        · cases hp
        · cases hp
          exact ⟨t, hd, ho⟩
      have hcode := methodCode_aside hs.ongoing
        (.method x.inside (method.self x.path) method.returns) hself hsig rfl rfl block m.1.name.span
      refine Triple.bind (hcode.mono (fun _ h => h) (fun _ _ h => h) ?_) (fun code => ?_) s'
        (.refl hs.ongoing.cache)
      · rintro s₁ ⟨ha, hany⟩
        exact (hs.aside ha).waitFor fun _ _ hwait => hwait.skipMethod (.inl hany)
      · rintro s₁ ⟨ha, hcode⟩
        refine (hs.aside ha).update hx fun e he _ hwait => ?_
        obtain rfl : t = e := by
          rw [ha.image] at he
          simpa [hd] using he
        rw [ha.image] at hwait ⊢
        refine ⟨TypeDef.erased_withMethod code fun n hn => ?_, hwait.fillMethod hm hcode⟩
        exact hwait.listed m (by simp) (by rw [hbody]; rfl) n hn

theorem bindConstructor_filling (hx : x ∈ ds) (c : ConstructorDecl × Nat) :
    Triple (fun s => s.Filling old ds s₀ x ms (c :: cs)) (bindConstructor x c)
      (fun _ s => s.Filling old ds s₀ x ms cs) (fun s => s.Filling old ds s₀ x ms cs) := by
  intro s hs
  obtain ⟨d, hd, ho, hawaits⟩ := hs.awaits
  unfold bindConstructor
  refine Triple.bind (Q := fun t s' => s' = s ∧ t = d) (E := fun s => s.Filling old ds s₀ x ms cs)
    (fun s' hs' => ?_) (fun t => ?_) s rfl
  · subst hs'
    exact ⟨rfl, by simp [hd]⟩
  rintro s' ⟨rfl, rfl⟩
  cases hm : t.constructors[c.2]? with
  | none =>
    refine hs.waitFor fun e he hwait => hwait.skipConstructor (.inr fun n hn => ?_)
    obtain rfl : t = e := by simpa [hd] using he
    rw [hm] at hn
    cases hn
  | some method =>
    have hsigs := hs.ongoing.sigs _ t hd
    obtain ⟨hsig, hvoid, -⟩ := hsigs.constructors method (List.mem_of_getElem? hm)
    have hcode := methodCode_aside hs.ongoing
      { BodyContext.method x.inside (some x.path) .void with inConstructor := true }
      (fun p hp => by cases hp; exact ⟨t, hd, ho⟩) hsig (by rw [hvoid]; rfl) rfl c.1.body
      c.1.name.span
    refine Triple.bind (hcode.mono (fun _ h => h) (fun _ _ h => h) ?_) (fun code => ?_) s'
      (.refl hs.ongoing.cache)
    · rintro s₁ ⟨ha, hany⟩
      exact (hs.aside ha).waitFor fun _ _ hwait => hwait.skipConstructor (.inl hany)
    · rintro s₁ ⟨ha, hcode⟩
      refine (hs.aside ha).update hx fun e he _ hwait => ?_
      obtain rfl : t = e := by
        rw [ha.image] at he
        simpa [hd] using he
      rw [ha.image] at hwait ⊢
      refine ⟨TypeDef.erased_withConstructor code fun n hn => ?_, hwait.fillConstructor hm hcode⟩
      exact (hsigs.constructors n (List.mem_of_getElem? hn)).2.2

theorem bindMethods_filling (hx : x ∈ ds) : ∀ ms : List (MethodDecl × Nat),
    Triple (fun s => s.Filling old ds s₀ x ms cs) (Attempt.forAll (bindMethod x) ms)
      (fun _ s => s.Filling old ds s₀ x [] cs) fun _ => False
  | [] => Triple.pure fun _ h => h
  | m :: ms => by
    unfold Attempt.forAll
    refine Triple.bind (Q := fun _ s => s.Filling old ds s₀ x ms cs)
      (Triple.optional (bindMethod_filling hx m)) fun _ => ?_
    exact Triple.bind (bindMethods_filling hx ms) fun _ => Triple.pure fun _ h => h

theorem bindConstructors_filling (hx : x ∈ ds) : ∀ cs : List (ConstructorDecl × Nat),
    Triple (fun s => s.Filling old ds s₀ x ms cs) (Attempt.forAll (bindConstructor x) cs)
      (fun _ s => s.Filling old ds s₀ x ms []) fun _ => False
  | [] => Triple.pure fun _ h => h
  | c :: cs => by
    unfold Attempt.forAll
    refine Triple.bind (Q := fun _ s => s.Filling old ds s₀ x ms cs)
      (Triple.optional (bindConstructor_filling hx c)) fun _ => ?_
    exact Triple.bind (bindConstructors_filling hx cs) fun _ => Triple.pure fun _ h => h

/-- All code of these types is bound: their bodies are typed unless there are issues, and the other
types are what they were. -/
structure Filled (old : Session) (ds xs : List DeclaredType) (s s' : BindState)
    (bs : List BoundStmt) : Prop where
  ongoing : s'.Ongoing old ds
  stays : s.Stays s'
  grows : s.image.Grows s'.image
  frame : ∀ q, (∀ x ∈ xs, q ≠ x.path) → s'.image.typeDef? q = s.image.typeDef? q
  issues : s.issues.hasAny = true → s'.issues.hasAny = true
  bodies : s'.issues.hasAny = true ∨
    ∀ x ∈ xs, ∀ d, s'.image.typeDef? x.path = some d → d.BodiesOk s'.image x.path
  code : ∀ b ∈ bs, StaticCode s'.image b

theorem Filled.cons {xs : List DeclaredType} {s₁ s₂ : BindState} {bs bs' : List BoundStmt}
    (h : Filled old ds [x] s s₁ bs) (h' : Filled old ds xs s₁ s₂ bs')
    (hx : ∀ y ∈ xs, x.path ≠ y.path) : Filled old ds (x :: xs) s s₂ (bs ++ bs') where
  ongoing := h'.ongoing
  stays := h.stays.trans h'.stays
  grows := h.grows.trans h'.grows
  frame q hq := by
    refine (h'.frame q fun y hy => hq y (List.mem_cons_of_mem _ hy)).trans ?_
    exact h.frame q fun y hy => hq y (by simp_all)
  issues hi := h'.issues (h.issues hi)
  bodies := by
    rcases h.bodies with hany | hbodies
    · exact .inl (h'.issues hany)
    · refine h'.bodies.imp_right fun hrest => List.forall_mem_cons.mpr ⟨fun d hd => ?_, hrest⟩
      rw [h'.frame _ hx] at hd
      exact (hbodies x (by simp) d hd).grow h'.grows
  code b hb := by
    rcases List.mem_append.mp hb with hb | hb
    · exact (h.code b hb).grow h'.grows
    · exact h'.code b hb

theorem bindBodies_filled {p : PopulatedType} (h : s₀.Ongoing old ds) (hx : p.decl ∈ ds)
    (hwaits : Waits s₀.image p.decl p) :
    Triple (· = s₀) (bindBodies p) (fun bs s => Filled old ds [p.decl] s₀ s bs) fun _ => False := by
  obtain ⟨-, d, hd, hlacks⟩ := hwaits
  obtain ⟨-, d', hd', hhead⟩ := h.found _ hx
  obtain rfl : d = d' := by simpa [hd] using hd'
  have hkind : d.kind = p.decl.head.kind := hhead.kind
  unfold bindBodies
  split
  · next hno =>
    refine Triple.pure fun s hs => ?_
    subst hs
    refine ⟨h, .refl _, .refl _, fun _ _ => rfl, id, .inr fun y hy e he => ?_, by simp⟩
    obtain rfl := List.mem_singleton.mp hy
    obtain rfl : d = e := by simpa [hd] using he
    refine hlacks.bodiesOk ?_
    rw [← hkind] at hno
    rcases hno with hk | hk <;> simp [TypeDef.hasObjects, hk]
  · next hyes =>
    have hobjects : d.hasObjects = true := by
      rw [← hkind] at hyes
      cases hk : d.kind <;> simp_all [TypeDef.hasObjects]
    have hstart : Triple (· = s₀) (bindFieldInits p.decl)
        (fun bs s => s.Filling old ds s₀ p.decl p.methods p.constructors ∧
          ∀ b ∈ bs, StaticCode s.image b) fun _ => False := by
      rintro s rfl
      exact bindFieldInits_filling hx s ⟨h, .refl _, .refl _, fun _ _ => rfl, id, d, hd, hobjects,
        hlacks.awaits⟩
    refine Triple.bind hstart ?_
    rintro bs s₁ ⟨hs₁, hbs⟩
    -- the code of static fields has its types in `s₁`, so the rest is told from there
    have hagain : s₁.Filling old ds s₁ p.decl p.methods p.constructors :=
      ⟨hs₁.ongoing, .refl _, .refl _, fun _ _ => rfl, id, hs₁.awaits⟩
    refine Triple.bind (bindMethods_filling hx p.methods) (fun _ => ?_) s₁ hagain
    refine Triple.bind (bindConstructors_filling hx p.constructors) fun _ => ?_
    refine Triple.pure fun s hs => ⟨hs.ongoing, hs₁.stays.trans hs.stays, hs₁.grows.trans hs.grows,
      fun q hq => ?_, fun hi => hs.issues (hs₁.issues hi), ?_, fun b hb => (hbs b hb).grow hs.grows⟩
    · have hne := hq p.decl (by simp)
      exact (hs.frame q hne).trans (hs₁.frame q hne)
    · obtain ⟨e, he, -, hawaits⟩ := hs.awaits
      by_cases hany : s.issues.hasAny = true
      · exact .inl hany
      · refine .inr fun y hy e' he' => ?_
        obtain rfl := List.mem_singleton.mp hy
        obtain rfl : e = e' := by simpa [he] using he'
        exact hawaits.bodiesOk hany

theorem bindEach_filled (xs : List DeclaredType) : ∀ {ps : List PopulatedType} {s₀ : BindState},
    (∀ x ∈ xs, x ∈ ds) → (xs.map DeclaredType.path).Nodup → s₀.Ongoing old ds →
    List.Forall₂ (Waits s₀.image) xs ps →
    Triple (· = s₀) (Attempt.forAll bindBodies ps)
      (fun out s => Filled old ds xs s₀ s (out.filterMap id).flatten) fun _ => False := by
  induction xs with
  | nil =>
    rintro _ s₀ - - h ⟨⟩
    refine Triple.pure fun s hs => ?_
    subst hs
    exact ⟨h, .refl _, .refl _, fun _ _ => rfl, id, .inr (by simp), by simp⟩
  | cons x xs ih =>
    rintro _ s₀ hds hnodup h (_ | ⟨hp, hps⟩)
    rename_i p ps
    obtain rfl : p.decl = x := hp.1
    obtain ⟨hnotin, hrest⟩ := List.nodup_cons.mp hnodup
    have hne : ∀ y ∈ xs, p.decl.path ≠ y.path := fun y hy heq =>
      hnotin (heq ▸ List.mem_map_of_mem hy)
    have hfirst := bindBodies_filled h (hds p.decl (by simp)) hp
    unfold Attempt.forAll
    refine Triple.bind (Q := fun bs? s => ∃ bs, bs? = some bs ∧ Filled old ds [p.decl] s₀ s bs)
      (Triple.optional (hfirst.mono (fun _ h => h) (fun bs _ hbs => ⟨bs, rfl, hbs⟩)
        fun _ hf => hf.elim)) ?_
    rintro bs? s₁ ⟨bs, rfl, hs₁⟩
    have hps₁ : List.Forall₂ (Waits s₁.image) xs ps := by
      refine ((List.forall₂_and_left _ _).mpr ⟨hne, hps⟩).imp fun y q hq => ?_
      obtain ⟨hy, hq⟩ := hq
      unfold Waits at hq ⊢
      rwa [hs₁.frame y.path (by simpa using hy.symm)]
    refine Triple.bind (ih (fun y hy => hds y (List.mem_cons_of_mem _ hy)) hrest hs₁.ongoing hps₁)
      (fun out => Triple.pure fun s hs => ?_) s₁ rfl
    exact hs₁.cons hs hne

theorem bindAllBodies_filled {xs : List DeclaredType} {ps : List PopulatedType}
    (hds : ∀ x ∈ xs, x ∈ ds) (hnodup : (xs.map DeclaredType.path).Nodup) (h : s₀.Ongoing old ds)
    (hps : List.Forall₂ (Waits s₀.image) xs ps) :
    Triple (· = s₀) (bindAllBodies ps) (fun bs s => Filled old ds xs s₀ s bs) fun _ => False := by
  have hkept : Triple (· = s₀) (Attempt.keepSome bindBodies ps)
      (fun out s => Filled old ds xs s₀ s out.flatten) fun _ => False :=
    Triple.bind (bindEach_filled xs hds hnodup h hps) fun _ => Triple.pure fun _ hs => hs
  exact Triple.bind hkept fun _ => Triple.pure fun _ hs => hs

end Bind

end Chunkwise
