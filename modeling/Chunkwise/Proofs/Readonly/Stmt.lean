import Chunkwise.Proofs.Binder.Stmt
import Chunkwise.Proofs.Faithful.Stmt
import Chunkwise.Proofs.Machine.Store
import Chunkwise.Proofs.Readonly.Guard

/-!
A guard covers a state of binding if it lets all be written that may be written there. Statements bound
without a new issue are then permitted by the guard. `Guarded` is the contract of such binding: it
follows the site from the locals declared before to those declared after.
-/
namespace Chunkwise

open Attempt

/-- The context of the code that is being bound. -/
def BindState.context (s : BindState) : CodeContext :=
  ⟨s.image, s.store.Offers false, s.body.thisType, 0, none, none⟩

/-- A name in scope stands for a local of the site or for a variable of the chunk. -/
def Binding.Stands (w : Site) (vs : List PendingVariable) : Binding → Prop
  | .frame i t isReadonly => w.frame[i]? = some (t, isReadonly)
  | .variable i _ isReadonly => ∃ v ∈ vs, v.slot = i ∧ v.isReadonly = isReadonly

/-- The site describes where binding stands. -/
structure BindState.Stands (w : Site) (s : BindState) : Prop where
  fits : s.Fits (s.context.typing w.locals)
  cache : ∀ x ∈ s.cache, x.2.Known s.image
  self : s.body.thisType = w.self
  inConstructor : s.body.inConstructor = w.inConstructor
  next : s.body.scopes.nextSlot = w.frame.length
  bindings : ∀ scope ∈ s.body.scopes.all, ∀ x ∈ scope.bindings, x.2.Stands w s.newVariables

/-- What exists where binding stands exists for the guard, and what may be written is open. -/
structure Guard.Covers (g : Guard) (s : BindState) : Prop where
  image : s.image.Grows g.image
  slots : ∀ i t, s.store.Offers false i t → g.slots i t
  statics : ∀ i, s.image.Marks i false → g.opens i
  registry : ∀ name v, s.registry.lookup name = some v → v.isReadonly = false → g.opens v.slot
  created : ∀ v ∈ s.newVariables, v.isReadonly = false → g.opens v.slot

/-- Two states of one body, perhaps with other scopes. -/
structure BindState.Beside (s s' : BindState) : Prop where
  image : s'.image = s.image
  store : s'.store = s.store
  registry : s'.registry = s.registry
  usings : s'.usings = s.usings
  newVariables : s'.newVariables = s.newVariables
  thisType : s'.body.thisType = s.body.thisType
  returns : s'.body.returns = s.body.returns
  inConstructor : s'.body.inConstructor = s.body.inConstructor

/-- The bindings after an insertion are the old ones and the new one. -/
theorem Scopes.forall_insert {a : Scopes} {name : String} {b : Binding} {Q : Binding → Prop}
    (hnew : Q b) (hold : ∀ scope ∈ a.all, ∀ x ∈ scope.bindings, Q x.2) :
    ∀ scope ∈ (a.insert name b).all, ∀ x ∈ scope.bindings, Q x.2 := by
  intro scope hscope x hx
  rw [Scopes.all_eq] at hold
  rw [Scopes.insert_all] at hscope
  rcases List.mem_cons.mp hscope with rfl | hscope
  · rcases List.mem_cons.mp hx with rfl | hx
    · exact hnew
    · exact hold _ List.mem_cons_self x hx
  · exact hold scope (List.mem_cons_of_mem _ hscope) x hx

namespace BindState

variable {s s' : BindState} {w : Site} {g : Guard}

theorem Quiet.beside (h : s.Quiet s') : s.Beside s' :=
  ⟨h.image, h.store, h.registry, h.usings, h.newVariables, by rw [h.body], by rw [h.body],
    by rw [h.body]⟩

theorem Beside.refl (s : BindState) : s.Beside s := ⟨rfl, rfl, rfl, rfl, rfl, rfl, rfl, rfl⟩

theorem Beside.trans {s'' : BindState} (h : s.Beside s') (h' : s'.Beside s'') : s.Beside s'' :=
  ⟨h'.image.trans h.image, h'.store.trans h.store, h'.registry.trans h.registry,
    h'.usings.trans h.usings, h'.newVariables.trans h.newVariables, h'.thisType.trans h.thisType,
    h'.returns.trans h.returns, h'.inConstructor.trans h.inConstructor⟩

theorem Beside.symm (h : s.Beside s') : s'.Beside s :=
  ⟨h.image.symm, h.store.symm, h.registry.symm, h.usings.symm, h.newVariables.symm,
    h.thisType.symm, h.returns.symm, h.inConstructor.symm⟩

theorem beside_withScopes (s : BindState) (scopes : Scopes) : s.Beside (s.withScopes scopes) :=
  ⟨rfl, rfl, rfl, rfl, rfl, rfl, rfl, rfl⟩

theorem Stands.keep (h : s.Stands w) (hb : s.Beside s') (hcache : ∀ x ∈ s'.cache, x.2.Known s'.image)
    (hnext : s'.body.scopes.nextSlot = s.body.scopes.nextSlot)
    (hscopes : ∀ scope ∈ s'.body.scopes.all, ∀ x ∈ scope.bindings,
      ∃ outer ∈ s.body.scopes.all, x ∈ outer.bindings) : s'.Stands w where
  fits := by
    have hcontext : s'.context = s.context := by
      simp only [context, hb.image, hb.store, hb.thisType]
    refine h.fits.replace hb.image hb.usings hb.registry hb.store hb.thisType hb.returns
      (by rw [hcontext]) fun scope hscope x hx => ?_
    obtain ⟨outer, houter, hx⟩ := hscopes scope hscope x hx
    rw [hcontext]
    exact h.fits.scopes outer houter x hx
  cache := hcache
  self := hb.thisType.trans h.self
  inConstructor := hb.inConstructor.trans h.inConstructor
  next := hnext.trans h.next
  bindings scope hscope x hx := by
    obtain ⟨outer, houter, hx⟩ := hscopes scope hscope x hx
    rw [hb.newVariables]
    exact h.bindings outer houter x hx

theorem Stands.quiet (h : s.Stands w) (hq : s.Quiet s') : s'.Stands w :=
  h.keep hq.beside hq.cache (by rw [hq.body]) fun scope hscope x hx => ⟨scope, hq.body ▸ hscope, hx⟩

theorem Stands.define (h : s.Stands w) {t : Ty} (ht : s.image.Knows t) (name : String)
    (isReadonly : Bool) : (s.withScopes
      { s.body.scopes.insert name (.frame s.body.scopes.nextSlot t isReadonly) with
        nextSlot := s.body.scopes.nextSlot + 1 }).Stands (w.push t isReadonly) := by
  have hfree : w.locals w.frame.length = none := by simp [Site.locals]
  have hle : w.locals.Le (w.push t isReadonly).locals := by
    rw [Site.locals_push]
    exact Locals.le_set hfree
  rw [h.next]
  refine ⟨h.fits.replace rfl rfl rfl rfl rfl rfl rfl ?_, h.cache, h.self, h.inConstructor, ?_, ?_⟩
  · refine Scopes.forall_insert (Q := fun b => b.Ok _) ⟨?_, ht⟩ fun scope hscope x hx =>
      (h.fits.scopes scope hscope x hx).le hle
    change (w.push t isReadonly).locals w.frame.length = some t
    simp [Site.locals_push, Locals.set]
  · simp [withScopes, Site.push]
  · refine Scopes.forall_insert (Q := fun b => b.Stands (w.push t isReadonly) s.newVariables) ?_
      fun scope hscope x hx => ?_
    · simp [Binding.Stands, Site.push]
    · have hold := h.bindings scope hscope x hx
      cases hx : x.2 with
      | frame i u r =>
        rw [hx] at hold
        have hi := (List.getElem?_eq_some_iff.mp hold).1
        exact (List.getElem?_append_left hi).trans hold
      | _ =>
        rw [hx] at hold
        exact hold

end BindState

namespace Guard

variable {g : Guard} {s s' : BindState} {w : Site}

theorem Covers.beside (h : g.Covers s) (hb : s.Beside s') : g.Covers s' where
  image := by rw [hb.image]; exact h.image
  slots := by rw [hb.store]; exact h.slots
  statics := by rw [hb.image]; exact h.statics
  registry := by rw [hb.registry]; exact h.registry
  created := by rw [hb.newVariables]; exact h.created

theorem Covers.within (h : g.Covers s) (hs : s.Stands w) (l : List Nat) :
    (s.context.typing w.locals).Within (g.typing w) l :=
  ⟨h.image, .refl _, hs.self.symm, fun i _ t ho => h.slots i t ho⟩

theorem Covers.opens (h : g.Covers s) (hs : s.Stands w) :
    s.Opens (s.context.typing w.locals) (g.Allows w) where
  scopes scope hscope x hx := by
    have hstands := hs.bindings scope hscope x hx
    cases hb : x.2 with
    | frame i t isReadonly =>
      rw [hb] at hstands
      rintro rfl
      exact ⟨t, hstands⟩
    | _ =>
      rw [hb] at hstands
      obtain ⟨v, hv, rfl, rfl⟩ := hstands
      exact h.created v hv
  registry _ name v hv := h.registry name v hv
  statics p d f hd hf hopen := h.statics _ ⟨p, d, f, hd, hf, rfl, hopen⟩
  fields target p d i f ht hd hf hreadonly := by
    obtain ⟨d', hd', he⟩ := h.image p d hd
    refine ⟨p, d', f, ht.weaken (h.within hs _), hd', ?_, fun hr => ?_⟩
    · rwa [TypeDef.fields_of_erased he]
    · exact ⟨(hreadonly hr).1, hs.inConstructor.symm.trans (hreadonly hr).2⟩

theorem Covers.fits (h : g.Covers s) (hs : s.Stands w) {e : BoundExpr} {t : Ty}
    (he : e.Fits (s.context.typing w.locals) t) : e.Fits (g.typing w) t := he.weaken (h.within hs _)

/-- Binding that started in the first state stands at the site, and the guard covers it. -/
def At (g : Guard) (s₀ : BindState) (w : Site) (s : BindState) : Prop :=
  s.Stands w ∧ g.Covers s ∧ s₀.Beside s

theorem At.quiet {s₀ : BindState} (h : g.At s₀ w s) (hq : s.Quiet s') : g.At s₀ w s' :=
  ⟨h.1.quiet hq, h.2.1.beside hq.beside, h.2.2.trans hq.beside⟩

end Guard

theorem Careful.and {α : Type} {P P' : BindState → Prop} {p : Bind α}
    {Q Q' : α → BindState → Prop} (h : Careful P p Q) (h' : Careful P' p Q') :
    Careful (fun s => P s ∧ P' s) p fun a s => Q a s ∧ Q' a s := by
  refine ⟨h.grows, fun s hs => ?_⟩
  have hends := h.ends s hs.1
  have hends' := h'.ends s hs.2
  revert hends hends'
  rcases p s with ⟨_ | a, s'⟩
  · exact fun hends _ => hends
  · exact fun hends hends' hcount => ⟨hends hcount, hends' hcount⟩

/-- Careful binding under a guard, from a site with `P` to one that has `Q` together with the value. -/
def Guarded {α : Type} (g : Guard) (s₀ : BindState) (P : Site → Prop) (p : Bind α)
    (Q : Site → α → Prop) : Prop :=
  Careful (fun s => ∃ w, g.At s₀ w s ∧ P w) p fun a s => ∃ w, g.At s₀ w s ∧ Q w a

namespace Guarded

variable {α β : Type} {g : Guard} {s₀ : BindState} {P P' : Site → Prop} {Q Q' : Site → α → Prop}
  {R : Site → β → Prop} {p : Bind α}

theorem mono (h : Guarded g s₀ P p Q) (hP : ∀ w, P' w → P w) (hQ : ∀ w a, Q w a → Q' w a) :
    Guarded g s₀ P' p Q' :=
  Careful.mono h (fun _ ⟨w, hat, hw⟩ => ⟨w, hat, hP w hw⟩) fun _ _ ⟨w, hat, hw⟩ => ⟨w, hat, hQ w _ hw⟩

theorem pure {a : α} (h : ∀ w, P w → Q w a) : Guarded g s₀ P (Pure.pure a) Q :=
  Careful.pure fun _ ⟨w, hat, hw⟩ => ⟨w, hat, h w hw⟩

theorem bind {f : α → Bind β} (hp : Guarded g s₀ P p Q)
    (hf : ∀ a, Guarded g s₀ (fun w => Q w a) (f a) R) : Guarded g s₀ P (p >>= f) R :=
  Careful.bind hp hf

theorem optional (h : Guarded g s₀ P p Q) :
    Guarded g s₀ P (Attempt.optional p) fun w a? => ∃ a, a? = some a ∧ Q w a :=
  (Careful.optional h).mono (fun _ hs => hs) fun _ _ ⟨a, ha, w, hat, hw⟩ => ⟨w, hat, a, ha, hw⟩

theorem ofOption {a? : Option α} (h : ∀ w, P w → ∃ a, a? = some a ∧ Q w a) :
    Guarded g s₀ P (Attempt.ofOption a?) Q := by
  refine Careful.ofOption fun s ⟨w, hat, hw⟩ => ?_
  obtain ⟨a, ha, hq⟩ := h w hw
  exact ⟨a, ha, w, hat, hq⟩

theorem ofQuiet {S : α → Prop} {Q : Site → α → Prop} (hsure : Sure (fun _ => True) True p S)
    (h : ∀ s w, s.Stands w → g.Covers s → s₀.Beside s → Yields s.Quiet p (Q w)) :
    Guarded g s₀ P p fun w a => P w ∧ Q w a := by
  refine ⟨hsure.grows, fun s ⟨w, hat, hw⟩ => ?_⟩
  have hends := hsure.ends s ⟨trivial, trivial⟩
  have hq := h s w hat.1 hat.2.1 hat.2.2 s (.refl hat.1.cache)
  revert hends hq
  rcases p s with ⟨_ | a, s'⟩
  · exact fun hends _ => hends
  · exact fun _ hq _ => ⟨w, hat.quiet hq.1, hw, hq.2⟩

theorem following {R : Site → α → Site → Prop}
    (h : ∀ w, Guarded g s₀ (· = w) p fun w' a => R w a w') :
    Guarded g s₀ P p fun w' a => ∃ w, P w ∧ R w a w' := by
  refine ⟨(h .top).grows, fun s ⟨w, hat, hw⟩ => ?_⟩
  have hends := (h w).ends s ⟨w, hat, rfl⟩
  revert hends
  rcases p s with ⟨_ | a, s'⟩
  · exact id
  · intro hends hcount
    obtain ⟨w', hat', hr⟩ := hends hcount
    exact ⟨w', hat', w, hw, hr⟩

theorem andSure {S : α → Prop} (h : Guarded g s₀ P p Q) (hsure : Sure (fun _ => True) True p S) :
    Guarded g s₀ P p fun w a => Q w a ∧ S a :=
  (Careful.and h hsure).mono (fun _ hs => ⟨hs, trivial, trivial⟩)
    fun _ _ ⟨⟨w, hat, hq⟩, _, hs⟩ => ⟨w, hat, hq, hs⟩

theorem forAll {f : α → Bind β} {R : Site → α → β → Site → Prop} :
    ∀ {as : List α}, (∀ a ∈ as, ∀ w, Guarded g s₀ (· = w) (f a) fun w' b => R w a b w') → ∀ w,
    Guarded g s₀ (· = w) (Attempt.forAll f as) fun w' bs =>
      ∃ cs, bs = cs.map some ∧ Threads R w as cs w'
  | [], _, _ => pure fun _ hw => ⟨[], rfl, hw ▸ .nil⟩
  | a :: as, h, w => by
    have hrest := forAll fun x hx => h x (List.mem_cons_of_mem a hx)
    unfold Attempt.forAll
    refine (h a List.mem_cons_self w).optional.bind fun b? => (following hrest).bind fun bs => ?_
    refine pure ?_
    rintro w' ⟨w₁, ⟨b, rfl, hb⟩, cs, rfl, hcs⟩
    exact ⟨b :: cs, rfl, .cons hb hcs⟩

theorem keepSome {f : α → Bind β} {R : Site → α → β → Site → Prop} {as : List α}
    (h : ∀ a ∈ as, ∀ w, Guarded g s₀ (· = w) (f a) fun w' b => R w a b w') (w : Site) :
    Guarded g s₀ (· = w) (Attempt.keepSome f as) fun w' bs => Threads R w as bs w' := by
  unfold Attempt.keepSome
  refine (forAll h w).bind fun bs => pure ?_
  rintro w' ⟨cs, rfl, hcs⟩
  rw [List.filterMap_map]
  simpa using hcs

end Guarded

theorem Threads.append {α β : Type} {R : Site → α → β → Site → Prop} {w w₁ w₂ : Site}
    {as cs : List α} {bs ds : List β} (h : Threads R w as bs w₁) (h' : Threads R w₁ cs ds w₂) :
    Threads R w (as ++ cs) (bs ++ ds) w₂ := by
  induction h with
  | nil => exact h'
  | cons first _ ih => exact .cons first (ih h')

namespace Bind

variable {α : Type} {g : Guard} {s₀ : BindState} {P : Site → Prop}

theorem expr_guarded (e : Expr) : Guarded g s₀ P (expr e) fun w v => P w ∧ g.Safe w v.expr :=
  Guarded.ofQuiet (expr_sure e) fun _ _ hs hg _ =>
    (expr_sound hs.fits (hg.opens hs) e).mono fun _ hv => hv.2

theorem condition_guarded (e : Expr) : Guarded g s₀ P (condition e) fun w c => P w ∧ g.Safe w c :=
  Guarded.ofQuiet (condition_sure e) fun _ _ hs hg _ =>
    (condition_sound hs.fits (hg.opens hs) e).mono fun _ he => he.2

theorem declarator_guarded (decl : LocalDecl) (d : Declarator) :
    Guarded g s₀ P (declarator decl d) fun w x => P w ∧ s₀.image.Knows x.1 ∧
      ∀ e, x.2 = some e → e.Fits (g.typing w) x.1 ∧ g.Safe w e := by
  refine Guarded.ofQuiet (declarator_sure decl d) fun s w hs hg hb => ?_
  refine (declarator_sound hs.fits (hg.opens hs) decl d).mono fun x hx =>
    ⟨hb.image ▸ hx.1, fun e he => ?_⟩
  obtain ⟨hfits, hw⟩ := hx.2 e he
  exact ⟨hg.fits hs hfits, hw⟩

theorem body_guarded : Guarded g s₀ P body fun w _ => P w :=
  (Guarded.ofQuiet (Q := fun _ _ => True) body_sure fun _ _ _ _ _ =>
    body_quiet.mono fun _ _ => trivial).mono (fun _ hw => hw) fun _ _ hw => hw.1

theorem image_guarded :
    Guarded g s₀ P image fun w im => P w ∧ im = s₀.image := by
  refine Guarded.ofQuiet image_sure fun s w hs hg hb => ?_
  exact hb.image ▸ image_quiet

theorem defineLocal_guarded {t : Ty} (ht : ∀ w, P w → s₀.image.Knows t) (name : Ident)
    (isReadonly : Bool) : Guarded g s₀ P (defineLocal name t isReadonly) fun w' slot =>
      ∃ w, P w ∧ slot = w.frame.length ∧ w' = w.push t isReadonly := by
  have hsure : Sure (fun _ => True) True (defineLocal name t isReadonly) fun _ => True :=
    defineLocal_sure name t isReadonly
  refine ⟨hsure.grows, fun s ⟨w, hat, hw⟩ => ?_⟩
  obtain ⟨hs, hg, hb⟩ := hat
  rw [defineLocal_eq]
  by_cases hdef : s.body.scopes.definedHere name.name = true
  · rw [if_pos hdef]
    exact (Careful.refuse (P := fun _ => True) (Q := fun (_ : Nat) _ => True) _ _).ends s trivial
  · rw [if_neg hdef]
    have hk : s.image.Knows t := hb.image ▸ ht w hw
    have hbeside := s.beside_withScopes
      { s.body.scopes.insert name.name (.frame s.body.scopes.nextSlot t isReadonly) with
        nextSlot := s.body.scopes.nextSlot + 1 }
    refine fun _ => ⟨_, ⟨hs.define hk name.name isReadonly, ?_, ?_⟩, w, hw, hs.next, rfl⟩
    · exact hg.beside hbeside
    · exact hb.trans hbeside

theorem localVariable_guarded (hgrows : s₀.image.Grows g.image) (decl : LocalDecl) (d : Declarator)
    (w : Site) : Guarded g s₀ (· = w) (localVariable decl d) fun w' b =>
      g.Declares decl.isConst w d b w' := by
  have hcode : Guarded g s₀ (· = w) (localVariable decl d) fun w' b => ∃ e t,
      b = .expr (.assign (.frame w.frame.length) e) ∧ e.Fits (g.typing w) t ∧ g.Safe w e ∧
      w' = w.push t decl.isConst := by
    unfold localVariable
    refine (declarator_guarded decl d).bind fun x => ?_
    obtain ⟨t, init⟩ := x
    refine image_guarded.bind fun im => ?_
    refine (defineLocal_guarded (fun _ hw => hw.1.2.1) d.name decl.isConst).bind fun slot => ?_
    refine Guarded.pure ?_
    rintro w' ⟨w₁, ⟨⟨rfl, hk, hinit⟩, rfl⟩, rfl, rfl⟩
    refine ⟨init.getD (.const (s₀.image.defaultValue t)), t, rfl, ?_, ?_, rfl⟩
    · cases init with
      | some e => exact (hinit e rfl).1
      | none =>
        have hdefault : (BoundExpr.const (s₀.image.defaultValue t)).HasType
            ⟨s₀.image, g.slots, w₁.locals, w₁.self⟩ t := ⟨Value.conforms_defaultValue _ _, hk⟩
        have hwithin : TypingContext.Within ⟨s₀.image, g.slots, w₁.locals, w₁.self⟩
            (g.typing w₁) [] :=
          ⟨hgrows, .refl _, rfl, fun _ _ _ ho => ho⟩
        exact (hdefault.weaken hwithin).fits
    · cases init with
      | some e => exact (hinit e rfl).2
      | none => exact .const _
  refine (hcode.andSure (localVariable_sure decl d)).mono (fun _ hw => hw) ?_
  rintro w' b ⟨⟨e, t, rfl, hfits, hsafe, rfl⟩, hsets⟩
  exact .intro hsets hfits hsafe

theorem localDecl_guarded (hgrows : s₀.image.Grows g.image) (decl : LocalDecl) (w : Site) :
    Guarded g s₀ (· = w) (localDecl decl) fun w' bs =>
      Threads (g.Declares decl.isConst) w decl.declarators bs w' :=
  Guarded.keepSome (fun d _ w => localVariable_guarded hgrows decl d w) w

theorem updateScopes_guarded {f : Scopes → Scopes} (hnext : ∀ a, (f a).nextSlot = a.nextSlot)
    (hscopes : ∀ a, ∀ scope ∈ (f a).all, ∀ x ∈ scope.bindings, ∃ outer ∈ a.all, x ∈ outer.bindings) :
    Guarded g s₀ P (updateScopes f) fun w _ => P w := by
  refine Careful.modify (fun _ => rfl) fun s ⟨w, hat, hw⟩ => ?_
  have hb : s.Beside (s.withScopes (f s.body.scopes)) := s.beside_withScopes _
  exact ⟨w, ⟨hat.1.keep hb hat.1.cache (hnext _) (hscopes _), hat.2.1.beside hb, hat.2.2.trans hb⟩, hw⟩

theorem push_guarded (kind : ScopeKind) :
    Guarded g s₀ P (updateScopes (·.push kind)) fun w _ => P w := by
  refine updateScopes_guarded (fun _ => rfl) fun a scope hscope x hx => ?_
  rcases List.mem_cons.mp hscope with rfl | hscope
  · cases hx
  · exact ⟨scope, hscope, hx⟩

theorem pop_guarded : Guarded g s₀ P (updateScopes Scopes.pop) fun w _ => P w := by
  refine updateScopes_guarded (fun _ => rfl) fun a scope hscope x hx => ⟨scope, ?_, hx⟩
  simp only [Scopes.all, Scopes.pop, List.mem_append] at hscope ⊢
  exact hscope.imp_left List.mem_of_mem_tail

theorem within_guarded {p : Bind α} {Q : Site → α → Prop} (kind : ScopeKind)
    (h : Guarded g s₀ P p Q) : Guarded g s₀ P (within kind p) Q := by
  unfold within
  refine (push_guarded kind).bind fun _ => h.optional.bind fun a? => pop_guarded.bind fun _ => ?_
  exact Guarded.ofOption fun w hw => hw

theorem returned_writes {s₀ : BindState} {c : TypingContext} {A : Place → Prop} (h : s₀.Fits c)
    (hA : s₀.Opens c A) (value : Option Expr) (span : Span) :
    Yields s₀.Quiet (returned value span) fun b =>
      ∃ e?, b = .returnValue e? ∧ ∀ e, e? = some e → e.WritesOnly A := by
  unfold returned
  refine body_quiet.bind fun b _ => ?_
  split
  · exact refuse_quiet _ _
  · split
    · split
      · exact Yields.pure ⟨none, rfl, by simp⟩
      · exact refuse_quiet _ _
    · split
      · exact refuse_quiet _ _
      · refine (converted_sound h hA _ _).bind fun e he => Yields.pure ⟨some e, rfl, ?_⟩
        rintro _ ⟨⟩
        exact he.2

theorem returned_guarded (value : Option Expr) (span : Span) (w : Site) :
    Guarded g s₀ (· = w) (returned value span) fun w' b =>
      g.Permits w (.returnValue span value) b w' := by
  refine (Guarded.ofQuiet (returned_sure value span) fun s w hs hg _ =>
    returned_writes hs.fits (hg.opens hs) value span).mono (fun _ hw => hw) ?_
  rintro _ b ⟨rfl, e?, rfl, he⟩
  exact .returnValue he

theorem thrown_guarded (value : Option Expr) (span : Span) (w : Site) :
    Guarded g s₀ (· = w) (thrown value span) fun w' b =>
      g.Permits w (.throwValue span value) b w' := by
  cases value with
  | none => exact Careful.refuse _ _
  | some e =>
    unfold thrown
    have hvalue : Guarded g s₀ (· = w) (value e) fun w' v => w' = w ∧ g.Safe w' v.expr :=
      Guarded.ofQuiet (value_sure e) fun _ _ hs hg _ =>
        (value_sound hs.fits (hg.opens hs) e).mono fun _ hv => hv.1.2
    refine hvalue.bind fun v => Guarded.pure ?_
    rintro _ ⟨rfl, hv⟩
    exact .throwValue hv

theorem jump_guarded {b : BoundStmt} {s : Stmt} (h : ∀ w, g.Permits w s b w) (span : Span) (w : Site) :
    Guarded g s₀ (· = w) (jump b span) fun w' b => g.Permits w s b w' := by
  have hquiet : ∀ s : BindState, Yields s.Quiet (jump b span) fun b' => b' = b := by
    intro s
    unfold jump
    refine body_quiet.bind fun _ _ => ?_
    split
    · exact Yields.pure rfl
    · exact refuse_quiet _ _
  refine (Guarded.ofQuiet (jump_sure b span) fun s w _ _ _ => hquiet s).mono (fun _ hw => hw) ?_
  rintro _ _ ⟨rfl, rfl⟩
  exact h _

theorem forInit_guarded (hgrows : s₀.image.Grows g.image) (init : ForInit) (w : Site) :
    Guarded g s₀ (· = w) (forInit init) fun w' bs => g.PermitsInit w init bs w' := by
  cases init with
  | none => exact Guarded.pure fun _ hw => hw ▸ .none
  | declare decl => exact (localDecl_guarded hgrows decl w).mono (fun _ hw => hw) fun _ _ h => .declare h
  | exprs es =>
    unfold forInit
    have heach : ∀ e ∈ es, ∀ w : Site, Guarded g s₀ (· = w)
        (do return BoundStmt.expr (← expr e).expr : Bind BoundStmt) fun w' b =>
          w' = w ∧ ∃ be, b = .expr be ∧ g.Safe w be := fun e _ w =>
      (expr_guarded e).bind fun v => Guarded.pure fun w' hw => ⟨hw.1, v.expr, rfl, hw.1 ▸ hw.2⟩
    refine (Guarded.keepSome heach w).mono (fun _ hw => hw) fun w' bs h => ?_
    have hall : w' = w ∧ List.Forall₂ (fun _ b => ∃ e, b = .expr e ∧ g.Safe w e) es bs := by
      clear heach
      induction h with
      | nil => exact ⟨rfl, .nil⟩
      | cons first _ ih =>
        obtain ⟨rfl, hb⟩ := first
        exact ⟨ih.1, .cons hb ih.2⟩
    obtain ⟨rfl, hbs⟩ := hall
    exact .exprs hbs

theorem optionalCondition_guarded (test : Option Expr) :
    Guarded g s₀ P (optionalCondition test) fun w c? => P w ∧ ∀ c, c? = some c → g.Safe w c := by
  cases test with
  | none => exact Guarded.pure fun w hw => ⟨hw, by simp⟩
  | some e =>
    refine (condition_guarded e).optional.mono (fun _ hw => hw) ?_
    rintro w _ ⟨c, rfl, hw, hc⟩
    refine ⟨hw, ?_⟩
    rintro _ ⟨⟩
    exact hc

theorem update_guarded (es : List Expr) :
    Guarded g s₀ P (Attempt.keepSome (fun e => do return (← expr e).expr) es) fun w us =>
      P w ∧ ∀ u ∈ us, g.Safe w u := by
  refine Guarded.ofQuiet (update_sure es) fun s w hs hg _ => Yields.keepSome fun e _ => ?_
  exact (expr_sound hs.fits (hg.opens hs) e).bind fun v hv => Yields.pure hv.2

theorem inner_guarded {s : Stmt} (kind : ScopeKind) (h : s.isEmpty = false → ∀ w,
      Guarded g s₀ (· = w) (stmt s) fun w' b => g.Permits w s b w') (w : Site) :
    Guarded g s₀ (· = w) (Attempt.optional (within kind (stmt s))) fun w' b? =>
      Threads g.Permits w (Stmt.written [s]) b?.toList w' := by
  cases hs : s.isEmpty with
  | false =>
    rw [Stmt.written_singleton hs]
    refine (within_guarded kind (h hs w)).optional.mono (fun _ hw => hw) ?_
    rintro w' _ ⟨b, rfl, hb⟩
    exact .cons hb .nil
  | true =>
    cases s with
    | empty span =>
      rw [stmt]
      have heq : Attempt.optional (within kind (Attempt.fail : Bind BoundStmt)) =
          (do updateScopes (·.push kind); updateScopes Scopes.pop; return none) := rfl
      rw [heq]
      refine (push_guarded kind).bind fun _ => pop_guarded.bind fun _ => Guarded.pure ?_
      rintro _ rfl
      exact .nil
    | _ => simp [Stmt.isEmpty] at hs

theorem optionalStmt_guarded {s : Stmt} (h : s.isEmpty = false → ∀ w,
      Guarded g s₀ (· = w) (stmt s) fun w' b => g.Permits w s b w') (w : Site) :
    Guarded g s₀ (· = w) (Attempt.optional (stmt s)) fun w' b? =>
      Threads g.Permits w (Stmt.written [s]) b?.toList w' := by
  cases hs : s.isEmpty with
  | false =>
    rw [Stmt.written_singleton hs]
    refine (h hs w).optional.mono (fun _ hw => hw) ?_
    rintro w' _ ⟨b, rfl, hb⟩
    exact .cons hb .nil
  | true =>
    cases s with
    | empty span =>
      have heq : Attempt.optional (stmt (.empty span)) = (return none) := by rw [stmt]; rfl
      rw [heq]
      exact Guarded.pure fun _ hw => hw ▸ .nil
    | _ => simp [Stmt.isEmpty] at hs

mutual

theorem stmt_guarded (hgrows : s₀.image.Grows g.image) : ∀ (s : Stmt), s.isEmpty = false → ∀ w : Site,
    Guarded g s₀ (· = w) (stmt s) fun w' b => g.Permits w s b w'
  | .empty _, h, _ => by simp [Stmt.isEmpty] at h
  | .block _ body, _, w => by
    unfold stmt
    exact (within_guarded .block (stmts_guarded hgrows body w)).bind fun bs =>
      Guarded.pure fun _ h => .block h
  | .declare _ decl, _, w => by
    unfold stmt
    exact (localDecl_guarded hgrows decl w).bind fun bs => Guarded.pure fun _ h => .declare h
  | .expr _ e, _, w => by
    unfold stmt
    refine (expr_guarded e).bind fun v => Guarded.pure ?_
    rintro _ ⟨rfl, hv⟩
    exact .expr hv
  | .ifElse _ test yes none, _, w => by
    unfold stmt
    refine (condition_guarded test).optional.bind fun c? => ?_
    refine (Guarded.following (inner_guarded .block (stmt_guarded hgrows yes))).bind fun yes? => ?_
    refine (Guarded.ofOption (Q := fun w' c => g.Safe w c ∧
      Threads g.Permits w (Stmt.written [yes]) yes?.toList w') ?_).bind fun c => Guarded.pure ?_
    · rintro w' ⟨_, ⟨c, rfl, rfl, hc⟩, hyes⟩
      exact ⟨c, rfl, hc, hyes⟩
    · exact fun w' h => .ifElse h.1 h.2 .nil
  | .ifElse _ test yes (some no), _, w => by
    unfold stmt
    refine (condition_guarded test).optional.bind fun c? => ?_
    refine (Guarded.following (inner_guarded .block (stmt_guarded hgrows yes))).bind fun yes? => ?_
    refine (Guarded.following (inner_guarded .block (stmt_guarded hgrows no))).bind fun no? => ?_
    refine (Guarded.ofOption (Q := fun w' c => g.Safe w c ∧ ∃ w₁,
      Threads g.Permits w (Stmt.written [yes]) yes?.toList w₁ ∧
      Threads g.Permits w₁ (Stmt.written [no]) no?.toList w') ?_).bind fun c => Guarded.pure ?_
    · rintro w' ⟨w₁, ⟨_, ⟨c, rfl, rfl, hc⟩, hyes⟩, hno⟩
      exact ⟨c, rfl, hc, w₁, hyes, hno⟩
    · rintro w' ⟨hc, w₁, hyes, hno⟩
      exact .ifElse hc hyes hno
  | .whileDo _ test body, _, w => by
    unfold stmt
    refine (condition_guarded test).optional.bind fun c? => ?_
    refine (Guarded.following (inner_guarded .loop (stmt_guarded hgrows body))).bind fun body? => ?_
    refine (Guarded.ofOption (Q := fun w' c => g.Safe w c ∧
      Threads g.Permits w (Stmt.written [body]) body?.toList w') ?_).bind fun c => Guarded.pure ?_
    · rintro w' ⟨_, ⟨c, rfl, rfl, hc⟩, hbody⟩
      exact ⟨c, rfl, hc, hbody⟩
    · exact fun w' h => .whileDo h.1 h.2
  | .doWhile _ body test, _, w => by
    unfold stmt
    refine (inner_guarded .loop (stmt_guarded hgrows body) w).bind fun body? => ?_
    exact (condition_guarded test).bind fun c => Guarded.pure fun _ h => .doWhile h.1 h.2
  | .forLoop _ init test update body, _, w => by
    unfold stmt
    refine within_guarded .loop ?_
    refine (forInit_guarded hgrows init w).bind fun is => (optionalCondition_guarded test).bind fun c => ?_
    refine (update_guarded update).bind fun us => ?_
    refine (Guarded.following (inner_guarded .block (stmt_guarded hgrows body))).bind fun b? =>
      Guarded.pure ?_
    rintro w' ⟨w₁, ⟨⟨hinit, htest⟩, hupdate⟩, hbody⟩
    exact .forLoop hinit htest hupdate hbody
  | .breakLoop span, _, w => by
    unfold stmt
    exact jump_guarded (fun _ => .breakLoop) span w
  | .continueLoop span, _, w => by
    unfold stmt
    exact jump_guarded (fun _ => .continueLoop) span w
  | .returnValue span e, _, w => by
    unfold stmt
    exact returned_guarded e span w
  | .throwValue span e, _, w => by
    unfold stmt
    exact thrown_guarded e span w

theorem stmts_guarded (hgrows : s₀.image.Grows g.image) : ∀ (ss : List Stmt) (w : Site),
    Guarded g s₀ (· = w) (stmts ss) fun w' bs => Threads g.Permits w (Stmt.written ss) bs w'
  | [], _ => by
    unfold stmts
    exact Guarded.pure fun _ hw => hw ▸ .nil
  | s :: rest, w => by
    unfold stmts
    refine (optionalStmt_guarded (stmt_guarded hgrows s) w).bind fun s? => ?_
    refine (Guarded.following (stmts_guarded hgrows rest)).bind fun bs => Guarded.pure ?_
    rintro w' ⟨w₁, hs, hbs⟩
    rw [Stmt.written_cons]
    exact hs.append hbs

end

end Bind

end Chunkwise
