import Chunkwise.Proofs.Binder.Stmt
import Chunkwise.Proofs.Session.Valid

/-!
While the statements of a chunk are bound, storage grows by the slots of new variables, and nothing
else of the session changes. `Hosted` says so, and `Hosts` is the contract of one top-level
statement, whose code is typed by the slots that are in use after it.
-/
namespace Chunkwise

open Attempt

/-- The context of top-level code: every slot in use is within reach. -/
def hostContext (s : BindState) : CodeContext := ⟨s.image, s.store.Offers true, none, 0, none, none⟩

/-- The state is one on the way through the statements of a chunk. -/
structure BindState.Hosted (old : Session) (s : BindState) : Prop where
  image : s.image = old.image
  undo : s.undo = .empty
  registry : s.registry = old.registry
  usings : s.usings = []
  declared : s.declared = []
  thisType : s.body.thisType = none
  returns : s.body.returns = none
  inner : s.body.scopes.inner = []
  kind : s.body.scopes.root.kind = .host
  store : old.store.Adds old.image s.store
  bound : ∀ v ∈ s.newVariables, s.body.scopes.definedHere v.name = true
  names : (s.newVariables.map PendingVariable.name).Nodup
  slots : (s.newVariables.map PendingVariable.slot).Nodup
  fresh : ∀ v ∈ s.newVariables, old.store.slots.size ≤ v.slot ∧ v.slot < s.store.slots.size

/-- Slots, locals and issues were only added. -/
structure BindState.Onward (s s' : BindState) : Prop where
  store : s.store.Adds s.image s'.store
  image : s'.image = s.image
  nextSlot : s.body.scopes.nextSlot ≤ s'.body.scopes.nextSlot
  issues : s.issues.hasAny = true → s'.issues.hasAny = true

namespace BindState

variable {old : Session} {s s' s'' : BindState} {Γ : Locals}

theorem Moved.onward (h : s.Moved s') : s.Onward s' :=
  ⟨by rw [h.store]; exact .refl _ _, h.image, h.scopes.nextSlot, h.issues⟩

theorem Onward.trans (h : s.Onward s') (h' : s'.Onward s'') : s.Onward s'' :=
  ⟨h.store.trans (h.image ▸ h'.store), h'.image.trans h.image, Nat.le_trans h.nextSlot h'.nextSlot,
    fun hi => h'.issues (h.issues hi)⟩

theorem Hosted.moved (h : Hosted old s) (hm : s.Moved s') : Hosted old s' where
  image := hm.image.trans h.image
  undo := hm.undo.trans h.undo
  registry := hm.registry.trans h.registry
  usings := hm.usings.trans h.usings
  declared := hm.declared.trans h.declared
  thisType := hm.thisType.trans h.thisType
  returns := hm.returns.trans h.returns
  inner := List.length_eq_zero_iff.mp (hm.scopes.depth.trans (by rw [h.inner]; rfl))
  kind := by
    have hinner : s'.body.scopes.inner = [] :=
      List.length_eq_zero_iff.mp (hm.scopes.depth.trans (by rw [h.inner]; rfl))
    have hkind := hm.scopes.kind
    simp only [Scopes.innermost, h.inner, hinner] at hkind
    exact hkind.trans h.kind
  store := hm.store ▸ h.store
  bound v hv := hm.scopes.names _ (h.bound v (hm.newVariables ▸ hv))
  names := hm.newVariables ▸ h.names
  slots := hm.newVariables ▸ h.slots
  fresh v hv := hm.store ▸ h.fresh v (hm.newVariables ▸ hv)

theorem Hosted.inLoop (h : Hosted old s) : s.body.scopes.inLoop = false := by
  simp [Scopes.inLoop, Scopes.all, h.inner, h.kind]

theorem Onward.allBind (h : s.Onward s') {y y' : Option Ty} (hy : ∀ t, y = some t → y' = some t)
    {Γ Δ : Locals} {bs : List BoundStmt}
    (hb : BoundStmt.AllBind { hostContext s with yields := y } Γ false s.body.scopes.nextSlot Δ bs) :
    BoundStmt.AllBind { hostContext s' with yields := y' } Γ false s'.body.scopes.nextSlot Δ bs := by
  intro m hm
  refine BoundStmt.AllWellTyped.weaken ?_ (hb m (Nat.le_trans h.nextSlot hm))
  refine ⟨?_, rfl, fun _ _ _ ho => h.store.offers ho, Nat.le_refl _, rfl, hy⟩
  change s.image.Grows s'.image
  rw [h.image]
  exact .refl _

end BindState

namespace Bind

variable {α β : Type} {old : Session} {s : BindState} {Γ : Locals}

/-- The contract of binding at the top of a chunk, about what it gave from `s`. -/
def Hosts (old : Session) (Γ : Locals) (s : BindState) (r : Option α × BindState)
    (Q : BindState → Locals → α → Prop) : Prop :=
  r.2.Hosted old ∧ s.Onward r.2 ∧ match r.1 with
    | some a => ∃ Δ, Γ.Le Δ ∧ r.2.At (hostContext r.2) Δ ∧ Q r.2 Δ a
    | none => r.2.At (hostContext r.2) Γ

namespace Hosts

variable {Q : BindState → Locals → α → Prop} {R : BindState → Locals → β → Prop}

theorem pure {a : α} (h : s.Hosted old) (hat : s.At (hostContext s) Γ) (hq : Q s Γ a) :
    Hosts old Γ s ((Pure.pure a : Bind α) s) Q :=
  ⟨h, (BindState.Quiet.refl hat.cache).moved.onward, Γ, .refl Γ, hat, hq⟩

theorem hostContext_moved {s' : BindState} (hm : s.Moved s') : hostContext s' = hostContext s := by
  simp [hostContext, hm.image, hm.store]

theorem ofScoped {p : Bind α} {P : Bool → Nat → Locals → α → Prop} (h : s.Hosted old)
    (hat : s.At (hostContext s) Γ) (hp : Scoped (hostContext s) Γ p P)
    (hq : ∀ s' Δ a, s.Moved s' → P false s'.body.scopes.nextSlot Δ a → Q s' Δ a) :
    Hosts old Γ s (p s) Q := by
  have hrun := hp s hat
  revert hrun
  unfold Hosts
  rcases p s with ⟨_ | a, s'⟩
  · rintro ⟨hm, hat'⟩
    exact ⟨h.moved hm, hm.onward, hostContext_moved hm ▸ hat'⟩
  · rintro ⟨hm, Δ, hle, hat', hpa⟩
    rw [h.inLoop] at hpa
    exact ⟨h.moved hm, hm.onward, Δ, hle, hostContext_moved hm ▸ hat', hq s' Δ a hm hpa⟩

theorem refuse (h : s.Hosted old) (hat : s.At (hostContext s) Γ) (p : Problem) (span : Span) :
    Hosts old Γ s (Bind.refuse p span s) Q :=
  ofScoped h hat (Scoped.ofQuiet fun _ _ => refuse_quiet (Q := fun _ => False) p span)
    fun _ _ _ _ hf => hf.2.elim

theorem onward {s' : BindState} {Δ : Locals} {r : Option α × BindState} (ho : s.Onward s')
    (hle : Γ = Δ) (h : Hosts old Δ s' r Q) : Hosts old Γ s r Q := by
  subst hle
  exact ⟨h.1, ho.trans h.2.1, h.2.2⟩

theorem mono {Q' : BindState → Locals → α → Prop} {r : Option α × BindState}
    (h : Hosts old Γ s r Q) (hq : ∀ s' Δ a, Q s' Δ a → Q' s' Δ a) : Hosts old Γ s r Q' := by
  obtain ⟨a? , s'⟩ := r
  obtain ⟨hs', ho, h⟩ := h
  cases a? with
  | none => exact ⟨hs', ho, h⟩
  | some a =>
    obtain ⟨Δ, hle, hat, ha⟩ := h
    exact ⟨hs', ho, Δ, hle, hat, hq s' Δ a ha⟩

theorem bindQuiet {p : Bind α} {P : α → Prop} {f : α → Bind β} (h : s.Hosted old)
    (hat : s.At (hostContext s) Γ) (hp : Yields s.Quiet p P)
    (hf : ∀ a s', s.Quiet s' → s'.Hosted old → s'.At (hostContext s') Γ → P a →
      Hosts old Γ s' (f a s') R) : Hosts old Γ s ((p >>= f) s) R := by
  have hrun := hp s (.refl hat.cache)
  change Hosts old Γ s (Attempt.bind p f s) R
  unfold Attempt.bind
  revert hrun
  rcases p s with ⟨_ | a, s'⟩
  · intro hq
    exact ⟨h.moved hq.moved, hq.moved.onward, hostContext_moved hq.moved ▸ hat.quiet hq⟩
  · rintro ⟨hq, ha⟩
    exact (hf a s' hq (h.moved hq.moved) (hostContext_moved hq.moved ▸ hat.quiet hq) ha).onward
      hq.moved.onward rfl

theorem bind {p : Bind α} {f : α → Bind β} (hp : Hosts old Γ s (p s) Q)
    (hf : ∀ a s' Δ, s.Onward s' → s'.Hosted old → Γ.Le Δ → s'.At (hostContext s') Δ → Q s' Δ a →
      Hosts old Δ s' (f a s') fun s'' Θ b => s'.Onward s'' → R s'' Θ b)
    (htotal : ∀ a, Total (f a)) : Hosts old Γ s ((p >>= f) s) R := by
  change Hosts old Γ s (Attempt.bind p f s) R
  unfold Attempt.bind
  revert hp
  rcases p s with ⟨_ | a, s'⟩
  · exact id
  · rintro ⟨hs', ho, Δ, hle, hat, hq⟩
    have hrun := hf a s' Δ ho hs' hle hat hq
    have ht := htotal a s'
    revert hrun ht
    simp only
    rcases f a s' with ⟨_ | b, s''⟩
    · exact fun _ ht => absurd rfl ht
    · rintro ⟨hs'', ho', Θ, hle', hat', hr⟩ -
      exact ⟨hs'', ho.trans ho', Θ, hle.trans hle', hat', hr ho'⟩

theorem optional {p : Bind α} (h : Hosts old Γ s (p s) Q) :
    Hosts old Γ s (Attempt.optional p s) fun s' Δ a? =>
      match a? with
      | some a => Q s' Δ a
      | none => Δ = Γ := by
  unfold Attempt.optional
  revert h
  rcases p s with ⟨_ | a, s'⟩
  · exact fun ⟨hs', ho, hat⟩ => ⟨hs', ho, Γ, .refl Γ, hat, rfl⟩
  · exact id

end Hosts

/-- The state after a variable was created. -/
def withVariable (s : BindState) (name : String) (t : Ty) (isReadonly : Bool) : BindState :=
  { s with
    store := (s.store.addSlot name t (s.image.defaultValue t)).2
    body := { s.body with
      scopes := s.body.scopes.insert name (.variable s.store.slots.size t isReadonly) }
    newVariables := s.newVariables ++ [⟨name, s.store.slots.size, isReadonly⟩] }

theorem addVariable_eq {name : String} (h : s.body.scopes.definedHere name = false) (t : Ty)
    (isReadonly : Bool) : addVariable name t isReadonly s =
      (some s.store.slots.size, withVariable s name t isReadonly) := by
  change (some s.store.slots.size, _) = _
  simp [withVariable, Scopes.defineVariable, h, Store.addSlot]

theorem withVariable_hosted (h : s.Hosted old) {name : String} {t : Ty}
    (ht : old.image.Knows t) (hnew : s.body.scopes.definedHere name = false) (isReadonly : Bool) :
    (withVariable s name t isReadonly).Hosted old where
  image := h.image
  undo := h.undo
  registry := h.registry
  usings := h.usings
  declared := h.declared
  thisType := h.thisType
  returns := h.returns
  inner := by simp [withVariable, Scopes.insert, h.inner]
  kind := by simp [withVariable, Scopes.insert, h.inner, h.kind]
  store := by
    refine h.store.trans ?_
    rw [← h.image]
    exact .addSlot _ _ _ (h.image ▸ ht)
  bound v hv := by
    rcases List.mem_append.mp hv with hv | hv
    · exact (s.body.scopes.insert_leads _ _).names _ (h.bound v hv)
    · obtain rfl := List.mem_singleton.mp hv
      simp [withVariable, Scopes.definedHere, Scopes.insert_innermost]
  names := by
    simp only [withVariable, List.map_append, List.nodup_append]
    refine ⟨h.names, by simp, fun n hn m hm heq => ?_⟩
    obtain ⟨v, hv, rfl⟩ := List.mem_map.mp hn
    obtain rfl : m = name := by simpa using hm
    rw [← heq, h.bound v hv] at hnew
    cases hnew
  slots := by
    simp only [withVariable, List.map_append, List.nodup_append]
    refine ⟨h.slots, by simp, fun n hn m hm heq => ?_⟩
    obtain ⟨v, hv, rfl⟩ := List.mem_map.mp hn
    obtain rfl : m = s.store.slots.size := by simpa using hm
    exact absurd (h.fresh v hv).2 (by omega)
  fresh v hv := by
    have hsize : (withVariable s name t isReadonly).store.slots.size = s.store.slots.size + 1 := by
      simp [withVariable, Store.addSlot]
    rw [hsize]
    rcases List.mem_append.mp hv with hv | hv
    · have := h.fresh v hv
      omega
    · obtain rfl := List.mem_singleton.mp hv
      exact ⟨h.store.size, Nat.lt_succ_self _⟩

theorem withVariable_onward (name : String) {t : Ty} (ht : s.image.Knows t) (isReadonly : Bool) :
    s.Onward (withVariable s name t isReadonly) :=
  ⟨.addSlot _ _ _ ht, rfl, (s.body.scopes.insert_leads _ _).nextSlot, id⟩

/-- A new variable can be read by what follows, and all that was in reach still is. -/
theorem withVariable_at (hold : old.Valid) (h : s.Hosted old) (hat : s.At (hostContext s) Γ)
    {name : String} {t : Ty} (ht : s.image.Knows t) (isReadonly : Bool) :
    (withVariable s name t isReadonly).At (hostContext (withVariable s name t isReadonly)) Γ := by
  have hadds := (withVariable_onward name ht isReadonly).store
  have hoffers : ∀ {i u}, s.store.Offers true i u →
      (withVariable s name t isReadonly).store.Offers true i u := fun ho => hadds.offers ho
  refine ⟨⟨rfl, h.thisType.symm, hat.fits.usings, hat.fits.sigs, fun p hp => (by cases hp),
    fun i u hi => hoffers (hat.fits.statics i u hi), fun _ n v slot hv hslot => ?_,
    fun scope hscope x hx => ?_⟩, hat.cache, hat.returns, hat.result, fun i u hi => ?_⟩
  · obtain ⟨u, old', hi, rfl, hr⟩ := hold.registered n v (h.registry ▸ hv)
    have hslot' := (h.store.trans (h.image ▸ hadds)).slot hi
    obtain rfl : old' = slot := by simpa [hslot'] using hslot
    have hk : s.image.Knows old'.type := h.image ▸ hold.types _ _ hi
    exact ⟨⟨old', hslot, rfl, hr⟩, hk⟩
  · have hvariable : ∀ {y : Binding}, y.Ok ((hostContext s).typing Γ) →
        y.Ok ((hostContext (withVariable s name t isReadonly)).typing Γ) := by
      intro y hy
      match y, hy with
      | .frame _ _ _, hy => exact hy
      | .variable _ _ _, hy => exact ⟨hoffers hy.1, hy.2⟩
    have hmem := hat.fits.scopes
    rw [Scopes.all_eq] at hmem
    change scope ∈ (s.body.scopes.insert name (.variable s.store.slots.size t isReadonly)).all
      at hscope
    rw [Scopes.insert_all] at hscope
    rcases List.mem_cons.mp hscope with rfl | hscope
    · rcases List.mem_cons.mp hx with rfl | hx
      · exact ⟨Store.offers_addSlot _ _ _ _ _, ht⟩
      · exact hvariable (hmem _ (by simp) x hx)
    · exact hvariable (hmem scope (List.mem_cons_of_mem _ hscope) x hx)
  · exact Nat.lt_of_lt_of_le (hat.bound i u hi) (s.body.scopes.insert_leads _ _).nextSlot

theorem addVariable_hosts (hold : old.Valid) (h : s.Hosted old) (hat : s.At (hostContext s) Γ)
    {name : String} {t : Ty} (ht : s.image.Knows t)
    (hnew : s.body.scopes.definedHere name = false) (isReadonly : Bool) :
    Hosts old Γ s (addVariable name t isReadonly s) fun s' Δ slot =>
      Δ = Γ ∧ s'.store.Offers true slot t := by
  rw [addVariable_eq hnew]
  exact ⟨withVariable_hosted h (h.image ▸ ht) hnew isReadonly, withVariable_onward name ht isReadonly, Γ,
    .refl Γ, withVariable_at hold h hat ht isReadonly, rfl, Store.offers_addSlot _ _ _ _ _⟩

/-- Top-level code typed by the state after it. Only the last statement may give a result. -/
def HostCode (isLast : Bool) (Γ : Locals) (s : BindState) (Δ : Locals) (bs : List BoundStmt) :
    Prop :=
  ∃ y, (isLast = false → y = none) ∧ BoundStmt.AllBind { hostContext s with yields := y } Γ false
    s.body.scopes.nextSlot Δ bs

theorem HostCode.nil (isLast : Bool) : HostCode isLast Γ s Γ [] := ⟨none, fun _ => rfl, fun _ _ => rfl⟩

theorem HostCode.last {Δ : Locals} {bs : List BoundStmt} (h : HostCode false Γ s Δ bs)
    (isLast : Bool) : HostCode isLast Γ s Δ bs := by
  obtain ⟨y, hy, hb⟩ := h
  exact ⟨y, fun _ => hy rfl, hb⟩

theorem HostCode.onward {isLast : Bool} {Δ : Locals} {bs : List BoundStmt} {s' : BindState}
    (h : HostCode isLast Γ s Δ bs) (ho : s.Onward s') : HostCode isLast Γ s' Δ bs := by
  obtain ⟨y, hy, hb⟩ := h
  exact ⟨y, hy, ho.allBind (fun _ ht => ht) hb⟩

theorem HostCode.append {isLast : Bool} {Δ Θ : Locals} {as bs : List BoundStmt}
    (ha : HostCode false Γ s Δ as) (hb : HostCode isLast Δ s Θ bs) :
    HostCode isLast Γ s Θ (as ++ bs) := by
  obtain ⟨y, hy, ha⟩ := ha
  obtain ⟨y', hy', hb⟩ := hb
  obtain rfl := hy rfl
  refine ⟨y', hy', fun m hm => BoundStmt.allWellTyped_append.mpr ⟨Δ, ?_, hb m hm⟩⟩
  refine BoundStmt.AllWellTyped.weaken ?_ (ha m hm)
  exact ⟨.refl _, rfl, fun _ _ _ h => h, Nat.le_refl _, rfl, fun t ht => by cases ht⟩

theorem HostCode.ofBinds {Δ : Locals} {b : BoundStmt}
    (h : b.Binds (hostContext s) Γ false s.body.scopes.nextSlot Δ) (isLast : Bool) :
    HostCode isLast Γ s Δ [b] :=
  ⟨none, fun _ => rfl, fun m hm => ⟨Δ, h m hm, rfl⟩⟩

theorem setVariable_code {slot : Nat} {t : Ty} {e : BoundExpr} {s' : BindState} (ho : s.Onward s')
    (hslot : s'.store.Offers true slot t) (he : e.Fits ((hostContext s).typing Γ) t)
    (isLast : Bool) : HostCode isLast Γ s' Γ [setVariable slot e] := by
  have himage : s.image.Grows s'.image := by
    rw [ho.image]
    exact .refl _
  have he' : e.Fits ((hostContext s').typing Γ) t :=
    BoundExpr.Fits.weaken (c := (hostContext s).typing Γ)
      ⟨himage, .refl Γ, rfl, fun _ _ _ h => ho.store.offers h⟩ he
  refine HostCode.ofBinds (b := setVariable slot e) (fun m _ => ?_) isLast
  exact .inl ⟨⟨t, hslot, he'⟩, rfl⟩

theorem isUnbound_quiet (hu : s.UsingsKnown) (name : String) :
    Yields s.Quiet (isUnbound name) fun b => b = true → s.body.scopes.definedHere name = false := by
  unfold isUnbound
  refine Yields.bind (Q := fun known => known = false → s.body.scopes.definedHere name = false)
    (Yields.gets fun s' hs' hknown => ?_) fun known hknown => ?_
  · simp only [Bool.or_eq_false_iff, hs'.body] at hknown
    have hnone := hknown.1.1
    unfold Scopes.lookup at hnone
    rw [Scopes.all_eq, List.findSome?_cons] at hnone
    unfold Scopes.definedHere
    split at hnone
    · cases hnone
    · next h => rw [h]; rfl
  · split
    · exact Yields.pure (by simp)
    · next hk =>
      refine body_quiet.bind fun b _ => (lookupEntity_quiet hu _ name).bind fun e? _ => ?_
      exact Yields.pure fun _ => hknown (by simpa using hk)

theorem implicitVariable_hosts (hold : old.Valid) (h : s.Hosted old)
    (hat : s.At (hostContext s) Γ) {name : String} (hnew : s.body.scopes.definedHere name = false)
    (e : Expr) (isLast : Bool) : Hosts old Γ s (implicitVariable name e s) fun s' Δ b =>
      HostCode isLast Γ s' Δ [b] := by
  unfold implicitVariable
  refine Hosts.bindQuiet h hat (value_ok hat.fits e) fun v s₁ hq h₁ hat₁ hv => ?_
  split
  · exact Hosts.refuse h₁ hat₁ _ _
  · have hk : s₁.image.Knows v.type := by
      rw [hq.image]
      exact hv.1.2
    refine Hosts.bind (addVariable_hosts hold h₁ hat₁ hk (hq.body ▸ hnew) false)
      (fun slot s₂ Δ ho h₂ _ hat₂ hslot => ?_) fun _ => Total.pure
    obtain ⟨rfl, hslot⟩ := hslot
    exact Hosts.pure h₂ hat₂ fun _ =>
      setVariable_code (hq.moved.onward.trans ho) hslot hv.1.1.fits isLast

theorem hostVariable_hosts (hold : old.Valid) (h : s.Hosted old) (hat : s.At (hostContext s) Γ)
    (decl : LocalDecl) (d : Declarator) :
    Hosts old Γ s (hostVariable decl d s) fun s' Δ b? => HostCode false Γ s' Δ b?.toList := by
  unfold hostVariable
  refine Hosts.bindQuiet h hat body_quiet fun b s₁ hq h₁ hat₁ hb => ?_
  subst hb
  split
  · exact Hosts.refuse h₁ hat₁ _ _
  · next hnew =>
    refine Hosts.bindQuiet h₁ hat₁ (declarator_ok hat₁.fits decl d) fun x s₂ hq₂ h₂ hat₂ hx => ?_
    obtain ⟨t, init⟩ := x
    obtain ⟨hk, hinit⟩ := hx
    have hnew' : s₂.body.scopes.definedHere d.name.name = false := by
      rw [hq₂.body, hq.body]
      simpa using hnew
    refine Hosts.bind (addVariable_hosts hold h₂ hat₂ (hq₂.image ▸ hk) hnew' decl.isConst)
      (fun slot s₃ Δ ho h₃ _ hat₃ hslot => ?_) fun _ => Total.pure
    obtain ⟨rfl, hslot⟩ := hslot
    refine Hosts.pure h₃ hat₃ fun _ => ?_
    cases init with
    | none => exact .nil false
    | some e => exact setVariable_code (hq₂.moved.onward.trans ho) hslot (hinit e rfl) false

theorem eachVariable_hosts (hold : old.Valid) (decl : LocalDecl) : ∀ (ds : List Declarator)
    {s : BindState} {Γ : Locals}, s.Hosted old → s.At (hostContext s) Γ →
    Hosts old Γ s (Attempt.forAll (hostVariable decl) ds s)
      fun s' Δ out => HostCode false Γ s' Δ ((out.filterMap id).filterMap id) := by
  intro ds
  induction ds with
  | nil => exact fun h hat => Hosts.pure h hat (.nil false)
  | cons d ds ih =>
    intro s Γ h hat
    unfold Attempt.forAll
    refine Hosts.bind (hostVariable_hosts hold h hat decl d).optional
      (fun b? s₁ Δ ho h₁ hle hat₁ hb => ?_) fun _ => (Total.forAll ds).bind fun _ => Total.pure
    refine Hosts.bind (ih h₁ hat₁) (fun out s₂ Θ ho₂ h₂ _ hat₂ hout => ?_) fun _ => Total.pure
    refine Hosts.pure h₂ hat₂ fun _ _ => ?_
    rcases b? with _ | _ | b
    · obtain rfl : Δ = Γ := hb
      exact hout
    · exact (HostCode.onward hb ho₂).append hout
    · exact (HostCode.onward hb ho₂).append hout

theorem hostVariables_hosts (hold : old.Valid) (h : s.Hosted old) (hat : s.At (hostContext s) Γ)
    (decl : LocalDecl) :
    Hosts old Γ s (hostVariables decl s) fun s' Δ bs => HostCode false Γ s' Δ bs := by
  have hkeep : Hosts old Γ s (Attempt.keepSome (hostVariable decl) decl.declarators s)
      fun s' Δ bs => HostCode false Γ s' Δ (bs.filterMap id) := by
    unfold Attempt.keepSome
    refine Hosts.bind (eachVariable_hosts hold decl decl.declarators h hat)
      (fun out s₁ Δ _ h₁ _ hat₁ hout => ?_) fun _ => Total.pure
    exact Hosts.pure h₁ hat₁ fun _ => hout
  unfold hostVariables
  refine Hosts.bind hkeep (fun bs s₁ Δ _ h₁ _ hat₁ hbs => ?_) fun _ => Total.pure
  exact Hosts.pure h₁ hat₁ fun _ => hbs

theorem hostExpr_hosts (h : s.Hosted old) (hat : s.At (hostContext s) Γ) (isLast : Bool)
    (e : Expr) : Hosts old Γ s (hostExpr isLast e s) fun s' Δ b => HostCode isLast Γ s' Δ [b] := by
  unfold hostExpr
  refine Hosts.bindQuiet h hat (expr_ok hat.fits e) fun v s₁ hq h₁ hat₁ hv => ?_
  have hcontext : hostContext s₁ = hostContext s := Hosts.hostContext_moved hq.moved
  split
  · next hcapture =>
    have hlast : isLast = true := by
      simp only [Bool.and_eq_true] at hcapture
      exact hcapture.1.1
    refine Hosts.pure h₁ hat₁ ⟨some v.type, by simp [hlast], fun m _ => ⟨Γ, ?_, rfl⟩⟩
    rw [hcontext]
    exact ⟨⟨v.type, rfl, hv.1⟩, rfl⟩
  · refine Hosts.pure h₁ hat₁ (.ofBinds (b := .expr v.expr) (fun m _ => ?_) isLast)
    rw [hcontext]
    exact .inl ⟨⟨v.type, hv.1⟩, rfl⟩

theorem hostExprStmt_hosts (hold : old.Valid) (h : s.Hosted old) (hat : s.At (hostContext s) Γ)
    (isLast : Bool) (e : Expr) :
    Hosts old Γ s (hostExprStmt isLast e s) fun s' Δ b => HostCode isLast Γ s' Δ [b] := by
  unfold hostExprStmt
  rcases implicitTarget? e with _ | ⟨name, value⟩
  · exact hostExpr_hosts h hat isLast e
  · refine Hosts.bindQuiet h hat (isUnbound_quiet hat.fits.usings name)
      fun unbound s₁ hq h₁ hat₁ hunbound => ?_
    split
    · next htrue => exact implicitVariable_hosts hold h₁ hat₁ (hq.body ▸ hunbound htrue) value isLast
    · exact hostExpr_hosts h₁ hat₁ isLast e

theorem toList_hosts {p : Bind BoundStmt} {isLast : Bool}
    (hp : Hosts old Γ s (p s) fun s' Δ b => HostCode isLast Γ s' Δ [b]) :
    Hosts old Γ s ((do return (← Attempt.optional p).toList : Bind (List BoundStmt)) s)
      fun s' Δ bs => HostCode isLast Γ s' Δ bs := by
  refine Hosts.bind hp.optional (fun b? s₁ Δ ho h₁ _ hat₁ hb => ?_) fun _ => Total.pure
  refine Hosts.pure h₁ hat₁ fun _ => ?_
  cases b? with
  | none =>
    obtain rfl : Δ = Γ := hb
    exact .nil isLast
  | some b => exact hb

theorem stmt_hosts (h : s.Hosted old) (hat : s.At (hostContext s) Γ) (isLast : Bool) (x : Stmt) :
    Hosts old Γ s (stmt x s) fun s' Δ b => HostCode isLast Γ s' Δ [b] := by
  refine Hosts.ofScoped h hat (stmt_scoped x Γ) fun s' Δ b hm hb => .ofBinds ?_ isLast
  rw [Hosts.hostContext_moved hm]
  exact hb

theorem hostStmt_hosts (hold : old.Valid) (h : s.Hosted old) (hat : s.At (hostContext s) Γ)
    (isLast : Bool) (x : Stmt) :
    Hosts old Γ s (hostStmt isLast x s) fun s' Δ bs => HostCode isLast Γ s' Δ bs := by
  cases x with
  | declare _ decl => exact (hostVariables_hosts hold h hat decl).mono fun _ _ _ hb => hb.last isLast
  | expr _ e => exact toList_hosts (hostExprStmt_hosts hold h hat isLast e)
  | _ => exact toList_hosts (stmt_hosts h hat isLast _)

theorem hostStmt_total (isLast : Bool) (x : Stmt) : Total (hostStmt isLast x) := by
  cases x with
  | declare _ decl => exact (Total.keepSome _).bind fun _ => Total.pure
  | _ => exact Total.optional.bind fun _ => Total.pure

theorem hostStmts_total (xs : List Stmt) : Total (hostStmts xs) := by
  induction xs with
  | nil => exact Total.pure
  | cons x rest ih => exact (hostStmt_total _ x).bind fun _ => ih.bind fun _ => Total.pure

/-- The statements of a chunk, each bound in the state that the one before has left. -/
theorem hostStmts_hosts (hold : old.Valid) : ∀ (xs : List Stmt) {s : BindState} {Γ : Locals},
    s.Hosted old → s.At (hostContext s) Γ →
    Hosts old Γ s (hostStmts xs s) fun s' Δ bs => HostCode true Γ s' Δ bs
  | [], _, _, h, hat => Hosts.pure h hat (.nil true)
  | [x], s, Γ, h, hat => by
    unfold hostStmts
    refine Hosts.bind (hostStmt_hosts hold h hat true x) (fun bs s₁ Δ _ h₁ _ hat₁ hbs => ?_)
      fun _ => Total.pure.bind fun _ => Total.pure
    refine Hosts.pure h₁ hat₁ fun _ => ?_
    simpa using hbs
  | x :: y :: rest, s, Γ, h, hat => by
    rw [hostStmts]
    refine Hosts.bind (hostStmt_hosts hold h hat false x) (fun bs s₁ Δ _ h₁ _ hat₁ hbs => ?_)
      fun _ => (hostStmts_total _).bind fun _ => Total.pure
    refine Hosts.bind (hostStmts_hosts hold (y :: rest) h₁ hat₁)
      (fun more s₂ Θ ho h₂ _ hat₂ hmore => ?_) fun _ => Total.pure
    exact Hosts.pure h₂ hat₂ fun _ _ => (hbs.onward ho).append hmore

end Bind

end Chunkwise
