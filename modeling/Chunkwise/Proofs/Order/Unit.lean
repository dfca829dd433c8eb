import Chunkwise.Proofs.Binder.Stages
import Chunkwise.Proofs.Faithful.Unit
import Chunkwise.Proofs.Order.Declare
import Chunkwise.Proofs.Order.Rounds

/-!
Each stage of binding a chunk of types comes to the same for the same types in another order. So one chunk is
bound without a problem exactly if the other is, and then the types look the same.
-/
namespace Chunkwise

open Attempt

/-- Both states have the image they had before the directives, with the same things at the same places, and
the same directives are in force. -/
structure Directing (im im' : Image) (m n : Nat) (s t : BindState) : Prop where
  left : s.image = im
  right : t.image = im'
  lookup : im.lookup = im'.lookup
  old : im.usings = im'.usings
  usings : s.usings = t.usings
  count : ∃ k, s.count = m + k ∧ t.count = n + k

namespace Directing

variable {im im' : Image} {m n : Nat} {s t s' t' : BindState}

theorem allUsings (h : Directing im im' m n s t) : s.allUsings = t.allUsings := by
  unfold BindState.allUsings
  rw [h.left, h.right, h.old, h.usings]

theorem keep (h : Directing im im' m n s t) (hs : s'.image = s.image) (ht : t'.image = t.image)
    (husings : s'.usings = t'.usings) (hissues : s'.issues = s.issues)
    (hissues' : t'.issues = t.issues) : Directing im im' m n s' t' where
  left := hs.trans h.left
  right := ht.trans h.right
  lookup := h.lookup
  old := h.old
  usings := husings
  count := by
    rw [BindState.count, BindState.count, hissues, hissues']
    exact h.count

theorem lenient (im im' : Image) (m n : Nat) : @Lenient Bind.lookupAnew (Directing im im' m n) :=
  letI := Bind.lookupAnew
  have hlookup : ∀ s t, Directing im im' m n s t → s.image.lookup = t.image.lookup := by
    intro s t h
    rw [h.left, h.right, h.lookup]
  { issue := fun s t i j h => by
      obtain ⟨k, hs, ht⟩ := h.count
      exact ⟨h.left, h.right, h.lookup, h.old, h.usings, k + 1, congrArg (· + 1) hs,
        congrArg (· + 1) ht⟩
    find := Bind.lookupAnew_parallel
      (fun s t h => BindState.lookupUncached_of_lookup (hlookup s t h) h.allUsings)
      fun _ _ _ _ h => h.keep rfl rfl h.usings rfl rfl
    lookup := hlookup }

end Directing

/-- The answers depend on nothing but what code sees. -/
structure NameLookup.Impartial (ask : NameLookup) : Prop where
  directed : ∀ (im im' : Image) (m n : Nat), Lenient (Directing im im' m n)
  beside : ∀ (path : Path) (T : TypeTable) (v : Overview TypeKind) (m n : Nat),
    Lenient (Beside path T v m n)
  abreast : ∀ (v : Overview TypeDef) (m n : Nat), Lenient (Abreast TypeDef.outline v m n)
  within : ∀ (v : Overview TypeDef) (m n : Nat), Lenient (Within v m n)

theorem Bind.lookupAnew_impartial : Bind.lookupAnew.Impartial :=
  ⟨Directing.lenient, Beside.lenient, Abreast.lenient, Within.lenient⟩

namespace Bind

section Directives

variable [NameLookup] {im im' : Image} {m n : Nat} (h : Lenient (Directing im im' m n))
include h

theorem usingTarget_parallel (u : UsingDirective) :
    Parallel (Directing im im' m n) Eq (usingTarget u) (usingTarget u.unplaced) := by
  have hsegments : u.unplaced.target.segments = u.target.segments := u.target.relocate_segments _
  have hsome : u.unplaced.aliasName.isSome = u.aliasName.isSome := by
    cases u with | mk aliasName target span => cases aliasName <;> rfl
  unfold usingTarget
  refine (image_parallel h.steady).bind fun i i' hi => ?_
  rw [hi, hsegments, hsome]
  rcases i'.lookup u.target.segments with _ | path | path
  · exact h.refuse_parallel
  · exact .pure rfl
  · exact .ite Iff.rfl (.pure rfl) (h.refuse_parallel)

theorem bindUsing_parallel (u : UsingDirective) :
    Parallel (Directing im im' m n) (fun _ _ => True) (bindUsing u) (bindUsing u.unplaced) := by
  have hname : u.unplaced.aliasName.map Ident.name = u.aliasName.map Ident.name := by
    cases u with | mk aliasName target span => cases aliasName <;> rfl
  have htext : u.unplaced.target.text = u.target.text := u.target.relocate_text _
  unfold bindUsing
  refine (usingTarget_parallel h u).bind fun target _ htarget => ?_
  subst htarget
  dsimp only
  rw [hname, htext]
  have hadd : Parallel (Directing im im' m n) (fun _ _ => True)
      (Attempt.modify fun s =>
        { s with usings := s.usings ++ [⟨u.aliasName.map Ident.name, target, u.target.text⟩] })
      (Attempt.modify fun s =>
        { s with usings := s.usings ++ [⟨u.aliasName.map Ident.name, target, u.target.text⟩] }) :=
    .modify fun s t hst => hst.keep rfl rfl (by rw [hst.usings]) rfl rfl
  cases hn : u.aliasName.map Ident.name with
  | none =>
    rw [hn] at hadd
    exact hadd
  | some name =>
    rw [hn] at hadd
    have htaken : Parallel (Directing im im' m n) Eq (aliasTaken name u.target.text)
        (aliasTaken name u.target.text) := .gets fun s t hst => by rw [hst.allUsings]
    refine htaken.bind fun taken _ heq => ?_
    subst heq
    exact .ite Iff.rfl ((h.refuse_parallel (A := fun _ _ => True)).andThen hadd) hadd

theorem bindUsings_parallel (us : List UsingDirective) :
    Parallel (Directing im im' m n) (fun _ _ => True) (bindUsings us)
      (bindUsings (us.map UsingDirective.unplaced)) := by
  unfold bindUsings
  exact (Parallel.forAll_map (B := fun _ _ => True) UsingDirective.unplaced fun u _ =>
    bindUsing_parallel h u).bind fun _ _ _ => .pure trivial

end Directives

section Units

variable [ask : NameLookup] (h : ask.Impartial) {s s' : BindState}
include h

/-- The same directives do the same where the same things are at the same places. -/
theorem exists_bindUsings {us us' : List UsingDirective}
    (hus : us.map UsingDirective.unplaced = us'.map UsingDirective.unplaced)
    (hlookup : s.image.lookup = s'.image.lookup) (hold : s.image.usings = s'.image.usings)
    (husings : s.usings = s'.usings) :
    ∃ t t' k, bindUsings us s = (some (), t) ∧ bindUsings us' s' = (some (), t') ∧
      t.image = s.image ∧ t'.image = s'.image ∧ t.allUsings = t'.allUsings ∧
      t.count = s.count + k ∧ t'.count = s'.count + k := by
  have hends : ∀ (vs : List UsingDirective) (r : BindState),
      bindUsings vs r = (some (), (bindUsings vs r).2) := by
    intro vs r
    obtain ⟨bs, hbs⟩ := Option.isSome_iff_exists.mp (isSome_forAll bindUsing vs r)
    unfold bindUsings
    rw [bind_eq_of_run (Prod.ext hbs rfl)]
    rfl
  -- both are compared with the directives without their places
  obtain ⟨-, hleft⟩ := bindUsings_parallel (h.directed s.image s.image s.count s.count) us s s
    ⟨rfl, rfl, rfl, rfl, rfl, 0, rfl, rfl⟩
  obtain ⟨-, hright⟩ := bindUsings_parallel (h.directed s'.image s.image s'.count s.count) us' s' s
    ⟨rfl, rfl, hlookup.symm, hold.symm, husings.symm, 0, rfl, rfl⟩
  rw [← hus] at hright
  obtain ⟨k, hk, hreference⟩ := hleft.count
  obtain ⟨k', hk', hreference'⟩ := hright.count
  obtain rfl : k = k' := by omega
  exact ⟨_, _, k, hends us s, hends us' s', hleft.left, hright.left,
    hleft.allUsings.trans hright.allUsings.symm, hk, hk'⟩

end Units

/-- The stages of a chunk of declarations, one after the other. -/
theorem declarationUnit_of_runs [NameLookup] {unit : DeclarationUnit} {ds : List DeclaredType}
    {ps : List PopulatedType} {code : List BoundStmt} {s s₁ s₂ s₃ b : BindState}
    (hdeclare : declareMembers [] unit.members s = (some ds, s₁)) (hclean₁ : s₁.count = 0)
    (husings : bindUsings unit.usings s₁ = (some (), s₂))
    (hpopulate : populateTypes ds s₂ = (some ps, s₃)) (hclean₃ : s₃.count = 0)
    (hbodies : bindAllBodies ps s₃ = (some code, b)) (hclean : b.count = 0) :
    declarationUnit unit s = (some ⟨code, 0⟩, b) := by
  have hstop : ∀ r : BindState, r.count = 0 → stopOnErrors r = (some (), r) := by
    intro r hr
    rw [stopOnErrors_run, if_pos hr]
  unfold declarationUnit
  rw [bind_eq_of_run hdeclare, bind_eq_of_run (hstop s₁ hclean₁), bind_eq_of_run husings,
    bind_eq_of_run hpopulate, bind_eq_of_run (hstop s₃ hclean₃), bind_eq_of_run hbodies,
    bind_eq_of_run (hstop b hclean)]
  rfl

theorem count_of_hasAny {s : BindState} (h : s.issues.hasAny = false) : s.count = 0 :=
  Nat.eq_zero_of_not_pos fun hpos => by
    rw [Log.hasAny, decide_eq_false_iff_not] at h
    exact h hpos

/-- If a chunk of types is bound without a problem, then so is the one with the same types in another order,
and all that can be seen of the types is the same. -/
theorem declarationUnit_reordered [ask : NameLookup] (h : ask.Impartial) {unit unit' : DeclarationUnit}
    {ds ds' : List TypeDecl} (hunit : unit.members = ds.map .type) (hunit' : unit'.members = ds'.map .type)
    (hperm : (ds.map TypeDecl.unplaced).Perm (ds'.map TypeDecl.unplaced))
    (hus : unit.usings.map UsingDirective.unplaced = unit'.usings.map UsingDirective.unplaced)
    {s b : BindState} {code : Code} (hs : s.count = 0) (hrun : declarationUnit unit s = (some code, b)) :
    ∃ code' b', declarationUnit unit' s = (some code', b') ∧ b'.count = 0 ∧
      b.overview TypeDef.outline = b'.overview TypeDef.outline := by
  obtain ⟨ts, ps, s₁, s₂, s₃, hdeclare, hclean₁, husings, hpopulate, hclean₃, hbodies, hclean, -⟩ :=
    declarationUnit_run hrun
  have htypes := TypeDecl.perm_types hperm
  have hpaths := htypes.map DeclaredType.path
  rw [List.map_map, List.map_map] at hpaths
  -- the first stage
  have hlays := declareMembers_lays ds
  have hroot : (s.image.lookup TypeContext.top.container).isSome := rfl
  rw [hunit] at hdeclare
  have hadmits : s.image.Admits (ds.flatMap TypeDecl.types) := by
    by_contra hnot
    have hcount := hlays.refused s hroot hnot
    rw [hdeclare] at hcount
    have hzero : s₁.count = 0 := count_of_hasAny hclean₁
    dsimp only at hcount
    omega
  have hadmits' : s.image.Admits (ds'.flatMap TypeDecl.types) := hadmits.perm hpaths
  obtain ⟨rfl, rfl⟩ : ds.flatMap TypeDecl.types = ts ∧ s.laid (ds.flatMap TypeDecl.types) = s₁ := by
    simpa [hlays.done s hroot hadmits] using hdeclare
  obtain ⟨hlookup, hdefs⟩ := BindState.laid_perm hadmits hadmits' htypes
  have hdeclare' := (declareMembers_lays ds').done s hroot hadmits'
  rw [← hunit'] at hdeclare'
  -- the directives
  obtain ⟨t₂, t₂', k, ht₂, ht₂', himage, himage', hall, hcount, hcount'⟩ :=
    exists_bindUsings h hus hlookup rfl rfl
  obtain rfl : t₂ = s₂ := by simpa [ht₂] using husings
  -- the types
  have hsame : t₂.overview TypeDef.outline = t₂'.overview TypeDef.outline := by
    unfold BindState.overview
    rw [himage, himage', hlookup, hdefs, hall]
  obtain ⟨qs, qs', hqs, hqs', hpopulated, hoverview, halike⟩ :=
    populateTypes_alike h.beside h.abreast hadmits.distinct htypes hsame
  rw [hpopulate] at hqs hoverview halike
  obtain rfl : ps = qs := Option.some.inj hqs
  have hstart : t₂'.count = t₂.count := by rw [hcount, hcount']; rfl
  have hzero₂ : t₂.count = 0 := by
    obtain ⟨P, ⟨j, hj, -⟩, -⟩ := halike
    have hzero₃ : s₃.count = 0 := count_of_hasAny hclean₃
    dsimp only at hj
    omega
  have hzero₃ : (populateTypes (ds'.flatMap TypeDecl.types) t₂').2.count = 0 :=
    halike.count_eq_zero (hstart.trans hzero₂) (count_of_hasAny hclean₃)
  -- the bodies
  obtain ⟨hoverview', halike'⟩ := bindAllBodies_alike h.within hpopulated hoverview
  rw [hbodies] at hoverview' halike'
  have hzero : (bindAllBodies qs' (populateTypes (ds'.flatMap TypeDecl.types) t₂').2).2.count = 0 :=
    halike'.count_eq_zero hzero₃ (count_of_hasAny hclean)
  obtain ⟨body, hbody⟩ : ∃ body, (bindAllBodies qs' (populateTypes (ds'.flatMap TypeDecl.types) t₂').2).1 =
      some body := by
    rw [bindAllBodies_eq, ← Option.isSome_iff_exists, Option.isSome_map]
    exact isSome_forAll _ _ _
  exact ⟨_, _, declarationUnit_of_runs hdeclare' hs ht₂' (Prod.ext hqs' rfl) hzero₃ (Prod.ext hbody rfl)
    hzero, hzero, hoverview'⟩

end Bind

end Chunkwise
