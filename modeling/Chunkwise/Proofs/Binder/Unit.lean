import Chunkwise.Binder.Unit
import Chunkwise.Proofs.Binder.Bodies
import Chunkwise.Proofs.Binder.Host

namespace Chunkwise

open Attempt

/-- A bound chunk: the image is sound and has grown, slots were added, and the code of the chunk is
typed by the slots in use. -/
structure BindState.Delivers (old : Session) (s : BindState) (code : Code) : Prop where
  extended : old.image.Extends s.image s.undo
  grows : old.image.Grows s.image
  sound : s.image.Sound
  usings : s.UsingsKnown
  store : old.store.Adds s.image s.store
  statics : ∀ i t, s.image.StaticSlot i t → s.store.Offers true i t ∧
    (old.image.StaticSlot i t ∨ old.store.slots.size ≤ i)
  names : (s.newVariables.map PendingVariable.name).Nodup
  slots : (s.newVariables.map PendingVariable.slot).Nodup
  fresh : ∀ v ∈ s.newVariables, old.store.slots.size ≤ v.slot ∧ v.slot < s.store.slots.size
  apart : ∀ v ∈ s.newVariables, ∀ t, ¬ s.image.StaticSlot v.slot t
  code : ∃ y Δ, BoundStmt.AllWellTyped
    ⟨s.image, s.store.Offers true, none, code.locals, none, y⟩ false code.body .none Δ

variable {old : Session} {ds : List DeclaredType} {s : BindState}

namespace Bind

theorem StaticCode.wellTyped {im : Image} {c : CodeContext} {b : BoundStmt} (h : StaticCode im b)
    (himage : c.image = im) (hself : c.self = none) (hslots : ∀ i t, im.StaticSlot i t → c.slots i t) :
    b.WellTyped c false .none .none := by
  obtain ⟨slot, e, t, rfl, hs, u, he, hu⟩ := h
  subst himage
  refine .inl ⟨⟨t, hslots slot t hs, u, he.weaken ?_, hu⟩, rfl⟩
  exact ⟨.refl _, .refl _, hself, fun i _ t hs => hslots i t hs⟩

theorem allWellTyped_static {im : Image} {c : CodeContext} (himage : c.image = im)
    (hself : c.self = none) (hslots : ∀ i t, im.StaticSlot i t → c.slots i t) :
    ∀ {bs : List BoundStmt}, (∀ b ∈ bs, StaticCode im b) →
      BoundStmt.AllWellTyped c false bs .none .none
  | [], _ => rfl
  | b :: bs, h => ⟨.none, (h b (by simp)).wellTyped himage hself hslots,
      allWellTyped_static himage hself hslots fun b' hb' => h b' (List.mem_cons_of_mem _ hb')⟩

end Bind

namespace BindState

theorem start_hosted (old : Session) :
    (start old.image old.registry old.store).Hosted old where
  image := rfl
  undo := rfl
  registry := rfl
  usings := rfl
  declared := rfl
  thisType := rfl
  returns := rfl
  inner := rfl
  kind := rfl
  store := .refl _ _
  bound v hv := by cases hv
  names := List.nodup_nil
  slots := List.nodup_nil
  fresh v hv := by cases hv

theorem start_at (hold : old.Valid) :
    let s := start old.image old.registry old.store
    s.At (hostContext s) .none := by
  refine ⟨⟨rfl, rfl, fun u hu => hold.usings u ?_, hold.sound.sigs, fun p hp => (by cases hp),
    hold.statics, fun _ name v slot hv hslot => ?_, fun scope hscope x hx => ?_⟩,
    fun x hx => (by cases hx), rfl, fun t ht => (by cases ht), fun i t hi => (by cases hi)⟩
  · simpa [allUsings, start] using hu
  · obtain ⟨t, slot', hslot', ht, hr⟩ := hold.registered name v hv
    obtain rfl : slot = slot' := Option.some.inj (hslot.symm.trans hslot')
    exact ⟨⟨slot, hslot, rfl, hr⟩, hold.types _ slot hslot⟩
  · obtain rfl : scope = ⟨.host, []⟩ := by
      simpa [start, BodyContext.host, Scopes.all, Scopes.ofKind] using hscope
    cases hx

theorem Hosted.extended (hold : old.Valid) (h : s.Hosted old) :
    old.image.Extends s.image s.undo := by
  rw [h.image, h.undo]
  exact .refl hold.closed

theorem Hosted.delivers (hold : old.Valid) {Δ : Locals} {bs : List BoundStmt}
    (h : s.Hosted old) (hat : s.At (hostContext s) Δ) (hcode : Bind.HostCode true .none s Δ bs) :
    s.Delivers old ⟨bs, s.body.scopes.slotCount⟩ where
  extended := h.extended hold
  grows := by
    rw [h.image]
    exact .refl _
  sound := by
    rw [h.image]
    exact hold.sound
  usings := hat.fits.usings
  store := by
    rw [h.image]
    exact h.store
  statics i t hs := by
    rw [h.image] at hs
    exact ⟨h.store.offers (hold.statics i t hs), .inl hs⟩
  names := h.names
  slots := h.slots
  fresh := h.fresh
  apart v hv t hs := by
    rw [h.image] at hs
    have hlt := (hold.statics _ t hs).lt
    have hge := (h.fresh v hv).1
    omega
  code := by
    obtain ⟨y, -, hcode⟩ := hcode
    exact ⟨y, Δ, hcode _ (Nat.le_refl _)⟩

theorem Ongoing.grows (h : s.Ongoing old ds) : old.image.Grows s.image :=
  fun p d hd => ⟨d, h.kept p d hd, rfl⟩

/-- The image is sound once the declared types conform and have their bodies. -/
theorem Ongoing.sound (hold : old.Valid) (h : s.Ongoing old ds)
    (hconforming : ∀ x ∈ ds, ∀ d, s.image.typeDef? x.path = some d → s.image.Conforming d)
    (hbodies : ∀ x ∈ ds, ∀ d, s.image.typeDef? x.path = some d → d.BodiesOk s.image x.path) :
    s.image.Sound where
  sigs := h.sigs
  bodies p d hd := by
    rcases h.new p d hd with hd' | ⟨x, hx, rfl⟩
    · exact (hold.sound.bodies p d hd').grow h.grows
    · exact hbodies x hx d hd
  conforming p d hd := by
    rcases h.new p d hd with hd' | ⟨x, hx, rfl⟩
    · exact (hold.sound.conforming p d hd').grow (hold.sound.sigs p d hd')
        h.grows rfl
    · exact hconforming x hx d hd

theorem Ongoing.delivers (h : s.Ongoing old ds) (hsound : s.image.Sound)
    {bs : List BoundStmt} (hcode : ∀ b ∈ bs, Bind.StaticCode s.image b) : s.Delivers old ⟨bs, 0⟩ where
  extended := h.extended
  grows := h.grows
  sound := hsound
  usings := h.usings
  store := h.store
  statics := h.statics
  names := by simp [h.newVariables]
  slots := by simp [h.newVariables]
  fresh := by simp [h.newVariables]
  apart := by simp [h.newVariables]
  code := ⟨none, .none, Bind.allWellTyped_static rfl rfl (fun i t hs => (h.statics i t hs).1) hcode⟩

end BindState

namespace Bind

/-- The contract of binding a chunk: it delivers unless there are issues, and what it declares can
be taken back in any case. -/
def Chunk (old : Session) (p : Bind Code) : Prop :=
  Triple (· = BindState.start old.image old.registry old.store) p
    (fun code s => s.issues.hasAny = false ∧ s.Delivers old code)
    fun s => old.image.Extends s.image s.undo

theorem stopOnErrors_triple {P : BindState → Prop} :
    Triple P stopOnErrors (fun _ s => P s ∧ s.issues.hasAny = false) P := by
  unfold stopOnErrors
  refine Triple.bind (Q := fun any s => P s ∧ s.issues.hasAny = any)
    (Triple.gets fun s hs => ⟨hs, rfl⟩) fun any => ?_
  cases any with
  | true => exact Triple.fail fun s hs => hs.1
  | false => exact Triple.pure fun s hs => hs

/-- A chunk of statements delivers, and its state is one of a host. -/
theorem statementUnit_hosted (hold : old.Valid) (unit : StatementUnit) :
    Triple (· = BindState.start old.image old.registry old.store) (statementUnit unit)
      (fun code s => s.issues.hasAny = false ∧ s.Delivers old code ∧ s.Hosted old)
      fun s => old.image.Extends s.image s.undo := by
  have hbound : Triple (· = BindState.start old.image old.registry old.store)
      (hostStmts unit.stmts)
      (fun bs s => ∃ Δ, s.Hosted old ∧ s.At (hostContext s) Δ ∧ HostCode true .none s Δ bs)
      fun s => old.image.Extends s.image s.undo := by
    rintro s rfl
    have hrun := hostStmts_hosts hold unit.stmts (BindState.start_hosted old)
      (BindState.start_at hold)
    revert hrun
    rcases hostStmts unit.stmts (BindState.start old.image old.registry old.store) with
      ⟨_ | bs, s'⟩
    · rintro ⟨h, -⟩
      exact h.extended hold
    · rintro ⟨h, -, Δ, -, hat, hcode⟩
      exact ⟨Δ, h, hat, hcode⟩
  unfold statementUnit
  refine Triple.bind (Q := fun _ s => s = BindState.start old.image old.registry old.store)
    (fun s hs => by subst hs; rfl) fun _ => ?_
  refine Triple.bind hbound fun bs => ?_
  refine Triple.bind (stopOnErrors_triple.mono (fun _ h => h) (fun _ _ h => h) ?_) fun _ => ?_
  · rintro s ⟨Δ, h, -⟩
    exact h.extended hold
  · rintro s ⟨⟨Δ, h, hat, hcode⟩, hany⟩
    exact ⟨hany, h.delivers hold hat hcode, h⟩

theorem statementUnit_chunk (hold : old.Valid) (unit : StatementUnit) :
    Chunk old (statementUnit unit) :=
  (statementUnit_hosted hold unit).mono (fun _ h => h) (fun _ _ h => ⟨h.1, h.2.1⟩) fun _ h => h

/-- The stages of a chunk of declarations: the first two declare, and all that follows leaves what is
declared alone. -/
def Staged (old : Session) (unit : DeclarationUnit) (b : BindState) : Prop :=
  ∃ ds s₁ s₂, declareMembers [] unit.members (.start old.image old.registry old.store) =
      (some ds, s₁) ∧ bindUsings unit.usings s₁ = (some (), s₂) ∧ s₂.Stays b

theorem declarationUnit_stages (hold : old.Valid) (unit : DeclarationUnit) :
    Triple (· = BindState.start old.image old.registry old.store) (declarationUnit unit)
      (fun code s => s.issues.hasAny = false ∧ s.Delivers old code ∧ Staged old unit s)
      fun s => old.image.Extends s.image s.undo := by
  have hdeclare : Triple (· = BindState.start old.image old.registry old.store)
      (declareMembers [] unit.members) (fun ds s => s.Ongoing old ds ∧
        (ds.map DeclaredType.path).Nodup ∧ ∀ x ∈ ds, s.image.typeDef? x.path = some x.bare)
      fun s => old.image.Extends s.image s.undo := by
    have hmembers : Declaring (BindState.start old.image old.registry old.store) []
        (declareMembers [] unit.members) := declareMembers_declares unit.members [] []
    refine Triple.mono hmembers ?_ ?_ fun _ hf => hf.elim
    · rintro s rfl
      exact .refl _
    · intro ds s h
      exact ⟨.start hold h, h.gains.distinct, fun x hx => (h.gains.found x hx).2⟩
  unfold declarationUnit
  refine Triple.bind hdeclare.with_run fun ds => ?_
  refine Triple.bind (stopOnErrors_triple.mono (fun _ h => h) (fun _ _ h => h) ?_) fun _ => ?_
  · exact fun s hs => hs.2.1.extended
  rintro s₁ ⟨⟨hrun₁, h₁, hnodup, hbare⟩, -⟩
  have husings : Triple (· = s₁) (bindUsings unit.usings)
      (fun _ s => s.Ongoing old ds ∧ s.image = s₁.image)
      fun s => old.image.Extends s.image s.undo := by
    refine Triple.mono (bindUsings_ongoing unit.usings) ?_ (fun _ _ h => h.1)
      fun s hs => hs.1.extended
    rintro s rfl
    exact ⟨h₁, rfl⟩
  refine Triple.bind husings.with_run (fun _ => ?_) s₁ rfl
  rintro s₂ ⟨hrun₂, h₂, himage⟩
  rw [← himage] at hbare
  refine Triple.bind ((populateTypes_ongoing ds (fun _ hx => hx) hnodup h₂ hbare).mono (fun _ h => h)
    (fun _ _ h => h) fun _ hf => hf.elim) (fun ps => ?_) s₂ rfl
  refine Triple.bind (stopOnErrors_triple.mono (fun _ h => h) (fun _ _ h => h) ?_) fun _ => ?_
  · exact fun s hs => hs.1.extended
  rintro s₃ ⟨⟨h₃, hstays₃, hwaits, hconforming⟩, hnone₃⟩
  refine Triple.bind ((bindAllBodies_filled (fun _ hx => hx) hnodup h₃ hwaits).mono (fun _ h => h)
    (fun _ _ h => h) fun _ hf => hf.elim) (fun bs => ?_) s₃ rfl
  refine Triple.bind (stopOnErrors_triple.mono (fun _ h => h) (fun _ _ h => h) ?_) fun _ => ?_
  · exact fun s hs => hs.ongoing.extended
  refine Triple.pure fun s hs => ⟨hs.2, hs.1.ongoing.delivers ?_ hs.1.code,
    ds, s₁, s₂, hrun₁, hrun₂, hstays₃.trans hs.1.stays⟩
  obtain ⟨hs, hnone⟩ := hs
  simp only [hnone₃, Bool.false_eq_true, false_or] at hconforming
  have hbodies := hs.bodies
  simp only [hnone, Bool.false_eq_true, false_or] at hbodies
  refine hs.ongoing.sound hold (fun x hx d hd => ?_) hbodies
  -- conformance was checked before the bodies came in
  obtain ⟨-, e, he, -⟩ := h₃.found x hx
  obtain ⟨d', hd', herased⟩ := hs.grows _ e he
  obtain rfl : d = d' := by simpa [hd] using hd'
  exact (hconforming x hx e he).grow (h₃.sigs _ e he) hs.grows herased

theorem declarationUnit_chunk (hold : old.Valid) (unit : DeclarationUnit) :
    Chunk old (declarationUnit unit) :=
  (declarationUnit_stages hold unit).mono (fun _ h => h) (fun _ _ h => ⟨h.1, h.2.1⟩) fun _ h => h

end Bind

end Chunkwise
