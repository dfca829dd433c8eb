import Chunkwise.Proofs.Order.Unit
import Chunkwise.Proofs.Session.Transparent

namespace Chunkwise

/-- The units declare the same types in different orders, under the same directives and with nothing besides
them. -/
structure DeclarationUnit.Reordered (unit unit' : DeclarationUnit) : Prop where
  types : ∃ ds ds' : List TypeDecl, unit.members = ds.map .type ∧ unit'.members = ds'.map .type ∧
    (ds.map TypeDecl.unplaced).Perm (ds'.map TypeDecl.unplaced)
  usings : unit.usings.map UsingDirective.unplaced = unit'.usings.map UsingDirective.unplaced

theorem DeclarationUnit.Reordered.symm {unit unit' : DeclarationUnit} (h : unit.Reordered unit') :
    unit'.Reordered unit := by
  obtain ⟨ds, ds', hds, hds', hperm⟩ := h.types
  exact ⟨⟨ds', ds, hds', hds, hperm.symm⟩, h.usings.symm⟩

/-- Both chunks are compiled, and then the same things are at the same places and all types look the same
but for the code in them and the slots of shared fields; or neither chunk can be bound. -/
def Compiled.Agrees (c c' : Compiled) : Prop :=
  (∃ u u', c.outcome = .unit u ∧ c'.outcome = .unit u' ∧ c.session.image.Resembles c'.session.image) ∨
    ∃ ds ds', c.outcome = .unresolved ds ∧ c'.outcome = .unresolved ds'

namespace Session

variable {s : Session} {unit : DeclarationUnit}

theorem compile_declarations_of_read {src : Source} {mode : ParseMode}
    (hread : (parseDeclarations src).clean? = some unit) :
    s.compile src .declarations mode = s.bind src .declarations (Bind.declarationUnit unit) := by
  obtain ⟨hclean, hunit⟩ := Parsed.clean?_eq_some.mp hread
  unfold compile bindParsed
  rw [hclean, hunit]
  rfl

theorem bind_of_run (src : Source) (kind : UnitKind) {binder : Bind Code} {code : Code} {b : BindState}
    (hrun : binder s.bindStart = (some code, b)) (hclean : b.count = 0) :
    ∃ u, (s.bind src kind binder).outcome = .unit u ∧ (s.bind src kind binder).session = s.commit b := by
  have hnone : b.issues.hasAny = false := decide_eq_false (Nat.not_lt.mpr (Nat.le_of_eq hclean))
  unfold bindStart at hrun
  unfold Session.bind
  rw [hrun]
  dsimp only
  rw [hnone]
  exact ⟨_, rfl, rfl⟩

theorem bind_of_gaveUp (src : Source) (kind : UnitKind) {binder : Bind Code} {b : BindState}
    (hrun : binder s.bindStart = (none, b)) :
    ∃ ds, (s.bind src kind binder).outcome = .unresolved ds := by
  unfold bindStart at hrun
  unfold Session.bind
  rw [hrun]
  exact ⟨_, rfl⟩

/-- What is seen of the types when binding ends is seen in the session. -/
theorem commit_resembles {b b' : BindState}
    (h : b.overview TypeDef.outline = b'.overview TypeDef.outline) :
    (s.commit b).image.Resembles (s.commit b').image where
  lookup := by
    have hlookup : b.image.lookup = b'.image.lookup := congrArg Overview.lookup h
    have hcommit : ∀ x : BindState, (s.commit x).image.lookup = x.image.lookup := fun x =>
      funext fun p => Image.lookup_congr (Image.commit_shape x.image x.usings x.declared) p
    rw [hcommit, hcommit, hlookup]
  outline p := by
    change ((b.image.commit _ _).typeDef? p).map _ = ((b'.image.commit _ _).typeDef? p).map _
    rw [Image.typeDef?_commit, Image.typeDef?_commit]
    exact congrFun (congrArg Overview.types h) p

end Session

namespace History

variable {h : History} {src src' : Source} {unit unit' : DeclarationUnit}

/-- Lookups without the cache do for a chunk of declarations. -/
theorem Reachable.declarationUnit_anew (hr : h.Reachable)
    (hread : (parseDeclarations src).clean? = some unit) :
    @Bind.declarationUnit Bind.lookupAnew unit h.session.bindStart =
      Bind.declarationUnit unit h.session.bindStart := by
  obtain ⟨ho, -⟩ := hr.directory
  obtain ⟨hclean, hunit⟩ := Parsed.clean?_eq_some.mp hread
  have hroot : h.session.image.Open [] := ⟨fun hmem => ho.nonempty _ hmem rfl, by simp⟩
  obtain ⟨c, hguided⟩ := Bind.declarationUnit_guided (s := h.session.bindStart)
    (named_of_read hclean hunit) ho.charted hroot rfl rfl rfl
  exact hguided _ (Bind.lookupAnew_follows c)

theorem Reachable.exists_reordered (hr : h.Reachable)
    (hread : (parseDeclarations src).clean? = some unit)
    (hread' : (parseDeclarations src').clean? = some unit') (hsame : unit.Reordered unit') {code : Code}
    {b : BindState} (hrun : Bind.declarationUnit unit h.session.bindStart = (some code, b)) :
    b.count = 0 ∧ ∃ code' b', Bind.declarationUnit unit' h.session.bindStart = (some code', b') ∧
      b'.count = 0 ∧ b.overview TypeDef.outline = b'.overview TypeDef.outline := by
  obtain ⟨-, -, -, -, -, -, -, -, -, -, -, hclean, -⟩ := Bind.declarationUnit_run hrun
  obtain ⟨ds, ds', hds, hds', hperm⟩ := hsame.types
  rw [← hr.declarationUnit_anew hread] at hrun
  rw [← hr.declarationUnit_anew hread']
  exact ⟨Bind.count_of_hasAny hclean, @Bind.declarationUnit_reordered Bind.lookupAnew
    Bind.lookupAnew_impartial _ _ _ _ hds hds' hperm hsame.usings _ _ _ rfl hrun⟩

/-- The order of declarations in a chunk does not matter. In every session two chunks with the same types in
different orders are both compiled, and then the types look the same, or neither can be bound. -/
theorem Reachable.compile_reordered (hr : h.Reachable) (mode : ParseMode)
    (hread : (parseDeclarations src).clean? = some unit)
    (hread' : (parseDeclarations src').clean? = some unit') (hsame : unit.Reordered unit') :
    (h.session.compile src .declarations mode).Agrees
      (h.session.compile src' .declarations mode) := by
  rw [Session.compile_declarations_of_read hread, Session.compile_declarations_of_read hread']
  rcases hrun : Bind.declarationUnit unit h.session.bindStart with ⟨_ | code, b⟩
  · rcases hrun' : Bind.declarationUnit unit' h.session.bindStart with ⟨_ | code', b'⟩
    · obtain ⟨ds, hds⟩ := Session.bind_of_gaveUp src .declarations hrun
      obtain ⟨ds', hds'⟩ := Session.bind_of_gaveUp src' .declarations hrun'
      exact .inr ⟨ds, ds', hds, hds'⟩
    · obtain ⟨-, code, b, hback, -⟩ := hr.exists_reordered hread' hread hsame.symm hrun'
      rw [hrun] at hback
      cases hback
  · obtain ⟨hclean, code', b', hrun', hclean', hview⟩ := hr.exists_reordered hread hread' hsame hrun
    obtain ⟨u, hu, hsession⟩ := Session.bind_of_run src .declarations hrun hclean
    obtain ⟨u', hu', hsession'⟩ := Session.bind_of_run src' .declarations hrun' hclean'
    refine .inl ⟨u, u', hu, hu', ?_⟩
    rw [hsession, hsession']
    exact Session.commit_resembles hview

end History

/-- The head of a type that has no members. -/
def NamespaceMember.memberless? : NamespaceMember → Option TypeHead
  | .type ⟨head, [], _⟩ => some head.unplaced
  | _ => none

theorem NamespaceMember.exists_of_memberless : ∀ {ms : List NamespaceMember} {heads : List TypeHead},
    ms.map memberless? = heads.map some → ∃ ds : List TypeDecl, ms = ds.map .type ∧
      ds.map TypeDecl.unplaced = heads.map fun head => ⟨head, [], default⟩
  | [], [], _ => ⟨[], rfl, rfl⟩
  | m :: ms, head :: heads, hheads => by
    obtain ⟨hm, hms⟩ := List.cons.inj hheads
    obtain ⟨ds, rfl, hds⟩ := exists_of_memberless hms
    unfold memberless? at hm
    split at hm
    · next head' span =>
      obtain rfl := Option.some.inj hm
      exact ⟨⟨head', [], span⟩ :: ds, rfl, congrArg (_ :: ·) hds⟩
    · cases hm

theorem DeclarationUnit.Reordered.of_memberless {unit unit' : DeclarationUnit}
    {heads heads' : List TypeHead}
    (hheads : unit.members.map NamespaceMember.memberless? = heads.map some)
    (hheads' : unit'.members.map NamespaceMember.memberless? = heads'.map some) (hperm : heads.Perm heads')
    (hus : unit.usings = []) (hus' : unit'.usings = []) : unit.Reordered unit' := by
  obtain ⟨ds, hds, htypes⟩ := NamespaceMember.exists_of_memberless hheads
  obtain ⟨ds', hds', htypes'⟩ := NamespaceMember.exists_of_memberless hheads'
  refine ⟨⟨ds, ds', hds, hds', ?_⟩, by rw [hus, hus']⟩
  rw [htypes, htypes']
  exact hperm.map _

namespace History

def interfaceLast : Source := ⟨"test", "class A : I \x7b \x7d interface I \x7b \x7d"⟩

def interfaceFirst : Source := ⟨"test", "interface I \x7b \x7d class A : I \x7b \x7d"⟩

def classHead : TypeHead := ⟨[], [], .classKind, ⟨"A", default⟩, [⟨[⟨"I", default⟩], default⟩]⟩

def interfaceHead : TypeHead := ⟨[], [], .interfaceKind, ⟨"I", default⟩, []⟩

theorem interfaceLast_read : ((parseDeclarations interfaceLast).clean?.any fun unit =>
    unit.members.map NamespaceMember.memberless? == [classHead, interfaceHead].map some &&
      unit.usings == []) = true := by
  decide +kernel

theorem interfaceFirst_read : ((parseDeclarations interfaceFirst).clean?.any fun unit =>
    unit.members.map NamespaceMember.memberless? == [interfaceHead, classHead].map some &&
      unit.usings == []) = true := by
  decide +kernel

/-- A class may stand before the interface that it implements, and after it. -/
theorem compile_reordered_interface : ∃ unit unit',
    (parseDeclarations interfaceLast).clean? = some unit ∧
    (parseDeclarations interfaceFirst).clean? = some unit' ∧ unit.Reordered unit' ∧
    ((start Settings.default).session.compile interfaceLast .declarations .silent).outcome.unit?.isSome ∧
    ((start Settings.default).session.compile interfaceLast .declarations .silent).Agrees
      ((start Settings.default).session.compile interfaceFirst .declarations .silent) := by
  obtain ⟨unit, hread, hunit⟩ := (Option.any_eq_true _ _).mp interfaceLast_read
  obtain ⟨unit', hread', hunit'⟩ := (Option.any_eq_true _ _).mp interfaceFirst_read
  simp only [Bool.and_eq_true, beq_iff_eq] at hunit hunit'
  have hsame : unit.Reordered unit' :=
    .of_memberless hunit.1 hunit'.1 (.swap _ _ _) hunit.2 hunit'.2
  refine ⟨unit, unit', hread, hread', hsame, by decide +kernel, ?_⟩
  exact (Reachable.start Settings.default).compile_reordered .silent hread hread' hsame

end History

end Chunkwise
