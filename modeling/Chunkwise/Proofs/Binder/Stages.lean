import Chunkwise.Proofs.Binder.Unit

/-!
A chunk of declarations that is bound without a problem has gone through four stages, one after the
other. `Stages` names the states between them and says how far the declared types had come in each.
-/
namespace Chunkwise

open Attempt

namespace Bind

variable {old : Session} {unit : DeclarationUnit} {code : Code} {s b : BindState}
  {ds : List DeclaredType} {ps : List PopulatedType} {s₁ s₂ s₃ : BindState}

theorem clean_of_stopOnErrors {s s' : BindState} (h : stopOnErrors s = (some (), s')) :
    s' = s ∧ s.issues.hasAny = false := by
  unfold stopOnErrors at h
  obtain ⟨any, s₁, hany, hstop⟩ := bind_run h
  obtain ⟨rfl, rfl⟩ : s.issues.hasAny = any ∧ s = s₁ := by
    simpa [hasErrors, Attempt.gets] using hany
  split at hstop
  · cases hstop
  · next hno =>
    cases hstop
    exact ⟨rfl, by simpa using hno⟩

theorem declarationUnit_run [NameLookup] (h : declarationUnit unit s = (some code, b)) :
    ∃ ds ps s₁ s₂ s₃, declareMembers [] unit.members s = (some ds, s₁) ∧
      s₁.issues.hasAny = false ∧ bindUsings unit.usings s₁ = (some (), s₂) ∧
      populateTypes ds s₂ = (some ps, s₃) ∧ s₃.issues.hasAny = false ∧
      bindAllBodies ps s₃ = (some code.body, b) ∧ b.issues.hasAny = false ∧ code.locals = 0 := by
  unfold declarationUnit at h
  obtain ⟨ds, s₁, hdeclare, hrest⟩ := bind_run h
  obtain ⟨⟨⟩, s₁', hstop₁, hrest₁⟩ := bind_run hrest
  obtain ⟨rfl, hfirst⟩ := clean_of_stopOnErrors hstop₁
  obtain ⟨⟨⟩, s₂, husings, hrest₂⟩ := bind_run hrest₁
  obtain ⟨ps, s₃, hpopulate, hrest₃⟩ := bind_run hrest₂
  obtain ⟨⟨⟩, s₃', hstop₃, hrest₄⟩ := bind_run hrest₃
  obtain ⟨rfl, hclean⟩ := clean_of_stopOnErrors hstop₃
  obtain ⟨body, s₄, hbodies, hrest₅⟩ := bind_run hrest₄
  obtain ⟨⟨⟩, s₄', hstop₄, hrest₆⟩ := bind_run hrest₅
  obtain ⟨rfl, hdone⟩ := clean_of_stopOnErrors hstop₄
  cases hrest₆
  exact ⟨ds, ps, _, s₂, _, hdeclare, hfirst, husings, hpopulate, hclean, hbodies, hdone, rfl⟩

/-- The states after declaring, after the directives, after populating and at the end. -/
structure Stages (old : Session) (unit : DeclarationUnit) (code : Code) (ds : List DeclaredType)
    (ps : List PopulatedType) (s₁ s₂ s₃ b : BindState) : Prop where
  declare : declareMembers [] unit.members (.start old.image old.registry old.store) = (some ds, s₁)
  declareClean : s₁.issues.hasAny = false
  usings : bindUsings unit.usings s₁ = (some (), s₂)
  populate : populateTypes ds s₂ = (some ps, s₃)
  populateClean : s₃.issues.hasAny = false
  bodies : bindAllBodies ps s₃ = (some code.body, b)
  declares : (BindState.start old.image old.registry old.store).Declares s₁ ds
  directed : s₂.Ongoing old ds ∧ s₂.image = s₁.image
  populated : s₃.Ongoing old ds ∧ s₂.Stays s₃ ∧ List.Forall₂ (Waits s₃.image) ds ps
  filled : Filled old ds ds s₃ b code.body

theorem Stages.distinct (h : Stages old unit code ds ps s₁ s₂ s₃ b) :
    (ds.map DeclaredType.path).Nodup := h.declares.gains.distinct

theorem exists_stages (hold : old.Valid)
    (h : declarationUnit unit (.start old.image old.registry old.store) = (some code, b)) :
    ∃ ds ps s₁ s₂ s₃, Stages old unit code ds ps s₁ s₂ s₃ b := by
  obtain ⟨ds, ps, s₁, s₂, s₃, hdeclare, hclean₁, husings, hpopulate, hclean₃, hbodies, -, -⟩ :=
    declarationUnit_run h
  have hdeclares := Triple.of_run (declareMembers_declares unit.members [] []) (.refl _) hdeclare
  have hgains := hdeclares.gains
  have hdirected := (Triple.of_run (bindUsings_ongoing unit.usings) ⟨.start hold hdeclares, rfl⟩ husings).1
  have hbare : ∀ x ∈ ds, s₂.image.typeDef? x.path = some x.bare := fun x hx => by
    rw [hdirected.2]
    exact (hgains.found x hx).2
  obtain ⟨h₃, hstays, hwaits, -⟩ := Triple.of_run
    (populateTypes_ongoing ds (fun _ hx => hx) hgains.distinct hdirected.1 hbare) rfl hpopulate
  have hfilled := Triple.of_run
    (bindAllBodies_filled (fun _ hx => hx) hgains.distinct h₃ hwaits) rfl hbodies
  exact ⟨ds, ps, s₁, s₂, s₃, hdeclare, hclean₁, husings, hpopulate, hclean₃, hbodies, hdeclares,
    hdirected, ⟨h₃, hstays, hwaits⟩, hfilled⟩

end Bind

end Chunkwise
