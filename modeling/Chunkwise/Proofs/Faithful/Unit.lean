import Chunkwise.Proofs.Binder.Declare
import Chunkwise.Proofs.Faithful.Bodies
import Chunkwise.Proofs.Parser.Names

namespace Chunkwise

open Attempt

/-- A list of enum members and nothing else. -/
def OnlyEnumMembers (ms : List MemberDecl) : Prop := ∀ m ∈ ms, ∃ e, m = .enumMember e

theorem onlyEnumMembers_of_mem : ∀ {ms : List MemberDecl} {w : List TokenKind},
    w ∈ Grammar.enumList ms → OnlyEnumMembers ms
  | [], _, _ => by simp [OnlyEnumMembers]
  | [.enumMember e], _, _ => by simp [OnlyEnumMembers]
  | .enumMember e :: m :: rest, w, hw => by
    obtain ⟨_, -, v, hv, -⟩ := Language.mem_mul.mp hw
    have hrest := onlyEnumMembers_of_mem hv
    intro x hx
    rcases List.mem_cons.mp hx with rfl | hx
    · exact ⟨e, rfl⟩
    · exact hrest x hx
  | .field _ :: _, _, hw | .method _ :: _, _, hw | .constructor _ :: _, _, hw
  | .nested _ _ _ :: _, _, hw => hw.elim

theorem OnlyEnumMembers.foldl_add {ms : List MemberDecl} (h : OnlyEnumMembers ms) (o : Outline) :
    ms.foldl Outline.add o = o := by
  induction ms with
  | nil => rfl
  | cons m ms ih =>
    obtain ⟨e, rfl⟩ := h m List.mem_cons_self
    exact ih fun x hx => h x (List.mem_cons_of_mem _ hx)

theorem OnlyEnumMembers.nestedTypes {ms : List MemberDecl} (h : OnlyEnumMembers ms)
    (ctx : TypeContext) : MemberDecl.nestedTypes ctx ms = [] := by
  induction ms with
  | nil => rfl
  | cons m ms ih =>
    obtain ⟨e, rfl⟩ := h m List.mem_cons_self
    exact ih fun x hx => h x (List.mem_cons_of_mem _ hx)

theorem exists_mem_of_typeWith {h : TypeHead} {l : Language TokenKind} {w : List TokenKind}
    (hw : w ∈ Grammar.typeWith h l) : ∃ v, v ∈ l := by
  obtain ⟨_, hw, -⟩ := Language.mem_mul.mp hw
  obtain ⟨_, hw, -⟩ := Language.mem_mul.mp hw
  obtain ⟨-, -, v, hv, -⟩ := Language.mem_mul.mp hw
  exact ⟨v, hv⟩

/-- The types of a type declaration, if those in it are plain whenever it is no enum. -/
theorem plain_of_typeWith {head : TypeHead} {ms : List MemberDecl} {ctx : TypeContext}
    {w : List TokenKind} (hw : w ∈ Grammar.typeWith head
      (if head.kind = .enumKind then Grammar.enumList ms else Grammar.members head.name.name ms))
    (h : ∀ v, v ∈ Grammar.members head.name.name ms →
      ∀ d ∈ MemberDecl.nestedTypes (ctx.nested head.name.name) ms, d.Plain) :
    ∀ d ∈ DeclaredType.mk head ms ctx :: MemberDecl.nestedTypes (ctx.nested head.name.name) ms,
      d.Plain := by
  obtain ⟨v, hv⟩ := exists_mem_of_typeWith hw
  intro d hd
  by_cases hkind : head.kind = .enumKind
  · rw [if_pos hkind] at hv
    have honly := onlyEnumMembers_of_mem hv
    rw [honly.nestedTypes] at hd
    rw [List.mem_singleton.mp hd]
    exact fun _ => honly.foldl_add .empty
  · rw [if_neg hkind] at hv
    rcases List.mem_cons.mp hd with rfl | hd
    · exact fun henum => absurd henum hkind
    · exact h v hv d hd

mutual

theorem member_plain : ∀ (m : MemberDecl) (owner : String) (ctx : TypeContext) (w : List TokenKind),
    w ∈ Grammar.member owner m → ∀ d ∈ m.types ctx, d.Plain
  | .nested _ head ms, _, ctx, w, hw => by
    rw [Grammar.member] at hw
    rw [MemberDecl.types]
    exact plain_of_typeWith hw fun v hv => members_plain ms head.name.name _ v hv
  | .field _, _, _, _, _ | .method _, _, _, _, _ | .constructor _, _, _, _, _
  | .enumMember _, _, _, _, _ => by simp [MemberDecl.types]

theorem members_plain : ∀ (ms : List MemberDecl) (owner : String) (ctx : TypeContext)
    (w : List TokenKind), w ∈ Grammar.members owner ms → ∀ d ∈ MemberDecl.nestedTypes ctx ms, d.Plain
  | [], _, _, _, _ => by simp [MemberDecl.nestedTypes]
  | m :: rest, owner, ctx, w, hw => by
    rw [Grammar.members] at hw
    obtain ⟨u, hu, v, hv, -⟩ := Language.mem_mul.mp hw
    intro d hd
    rw [MemberDecl.nestedTypes] at hd
    rcases List.mem_append.mp hd with hd | hd
    · exact member_plain m owner ctx u hu d hd
    · exact members_plain rest owner ctx v hv d hd

end

mutual

theorem namespaceMember_plain : ∀ (m : NamespaceMember) (space : Path) (w : List TokenKind),
    w ∈ Grammar.namespaceMember m → ∀ d ∈ m.types space, d.Plain
  | .space _ name ms, space, w, hw => by
    rw [Grammar.namespaceMember] at hw
    obtain ⟨_, hw, -⟩ := Language.mem_mul.mp hw
    obtain ⟨-, -, v, hv, -⟩ := Language.mem_mul.mp hw
    rw [NamespaceMember.types]
    exact namespaceMembers_plain ms _ v hv
  | .type decl, space, w, hw => by
    rw [Grammar.namespaceMember] at hw
    rw [NamespaceMember.types]
    exact plain_of_typeWith hw fun v hv => members_plain decl.members decl.head.name.name _ v hv

theorem namespaceMembers_plain : ∀ (ms : List NamespaceMember) (space : Path) (w : List TokenKind),
    w ∈ Grammar.namespaceMembers ms → ∀ d ∈ NamespaceMember.allTypes space ms, d.Plain
  | [], _, _, _ => by simp [NamespaceMember.allTypes]
  | m :: rest, space, w, hw => by
    rw [Grammar.namespaceMembers] at hw
    obtain ⟨u, hu, v, hv, -⟩ := Language.mem_mul.mp hw
    intro d hd
    rw [NamespaceMember.allTypes] at hd
    rcases List.mem_append.mp hd with hd | hd
    · exact namespaceMember_plain m space u hu d hd
    · exact namespaceMembers_plain rest space v hv d hd

end

/-- The enums of a chunk that is read without a problem have nothing but their members. -/
theorem plain_of_read {src : Source} {unit : DeclarationUnit}
    (hclean : (parseDeclarations src).diagnostics.hasErrors = false)
    (hunit : (parseDeclarations src).unit = some unit) : ∀ d ∈ unit.types, d.Plain := by
  have hsentence := sentence_of_read Parser.declarationUnit_parses hclean hunit
  obtain ⟨-, -, v, hv, -⟩ := Language.mem_mul.mp hsentence
  exact namespaceMembers_plain unit.members [] v hv

theorem Careful.and_triple {α : Type} {P E : BindState → Prop} {p : Bind α}
    {Q Q' : α → BindState → Prop} (h : Careful P p Q) (h' : Triple P p Q' E) :
    Careful P p fun a s => Q a s ∧ Q' a s := by
  refine ⟨h.grows, fun s hs => ?_⟩
  have hends := h.ends s hs
  have hends' := h' s hs
  revert hends hends'
  rcases p s with ⟨_ | a, s'⟩
  · exact fun hends _ => hends
  · exact fun hends hends' hcount => ⟨hends hcount, hends'⟩

namespace Bind

theorem stopOnErrors_run (s : BindState) :
    stopOnErrors s = (if s.count = 0 then some () else none, s) := by
  change (if s.issues.hasAny = true then Attempt.fail else Pure.pure () : Bind Unit) s = _
  by_cases hcount : s.count = 0
  · have htotal : s.issues.total = 0 := hcount
    have hnone : s.issues.hasAny = false := by simp [Log.hasAny, htotal]
    rw [hnone, if_pos hcount]
    rfl
  · have htotal : s.issues.total ≠ 0 := hcount
    have hany : s.issues.hasAny = true := by simpa [Log.hasAny] using Nat.pos_of_ne_zero htotal
    rw [hany, if_neg hcount]
    rfl

theorem stopOnErrors_careful {P : BindState → Prop} :
    Careful (fun s => P s ∧ s.count = 0) stopOnErrors fun _ s => P s ∧ s.count = 0 := by
  refine ⟨fun s => .ofSame (by rw [stopOnErrors_run]), fun s hs => ?_⟩
  rw [stopOnErrors_run, if_pos hs.2]
  exact fun _ => hs

/-- A check for errors after a step: the rest runs only if no issue has been counted. -/
theorem stopping_run {α β : Type} (p : Bind α) (f : α → Bind β) (s : BindState) :
    (do let a ← p; stopOnErrors; f a : Bind β) s = match p s with
      | (some a, s') => if s'.count = 0 then f a s' else (none, s')
      | (none, s') => (none, s') := by
  change Attempt.bind p (fun a => Attempt.bind stopOnErrors fun _ => f a) s = _
  rw [Attempt.bind]
  rcases p s with ⟨_ | a, s'⟩
  · rfl
  · dsimp only
    rw [Attempt.bind, stopOnErrors_run]
    by_cases hcount : s'.count = 0
    · rw [if_pos hcount, if_pos hcount]
    · rw [if_neg hcount, if_neg hcount]

/-- What comes after a check for errors is about results without an issue only. -/
theorem stopping_careful {α β : Type} {p : Bind α} {f : α → Bind β} {Q : α → BindState → Prop}
    {R : β → BindState → Prop} (hp : Careful (fun _ => True) p Q)
    (hf : ∀ a, (∃ s, Q a s) → Careful (fun s => Q a s ∧ s.count = 0) (f a) R) :
    Careful (fun s => s.count = 0) (do let a ← p; stopOnErrors; f a) R := by
  have hboth : ∀ s, s.LogGrows ((do let a ← p; stopOnErrors; f a : Bind β) s).2 ∧
      (s.count = 0 → match (do let a ← p; stopOnErrors; f a : Bind β) s with
        | (some b, s') => s'.count = s.count → R b s'
        | (none, s') => s.count < s'.count) := by
    intro s
    have hfirst := hp.grows s
    have hends := hp.ends s trivial
    rw [stopping_run]
    revert hfirst hends
    rcases p s with ⟨_ | a, s'⟩
    · exact fun hfirst hends => ⟨hfirst, fun _ => hends⟩
    · intro hfirst hends
      have hle := hfirst.count
      dsimp only at hle hends ⊢
      by_cases hcount : s'.count = 0
      · have hstart : s.count = 0 := by omega
        have hq := hends (hcount.trans hstart.symm)
        have hnext := hf a ⟨s', hq⟩
        rw [if_pos hcount, hstart, ← hcount]
        exact ⟨hfirst.trans (hnext.grows s'), fun _ => hnext.ends s' ⟨hq, hcount⟩⟩
      · rw [if_neg hcount]
        exact ⟨hfirst, fun hstart => by dsimp only; omega⟩
  exact ⟨fun s => (hboth s).1, fun s hs => (hboth s).2 hs⟩

theorem quietly {α : Type} {J : TypeTable → Prop} {p : Bind α} {Q : α → Prop}
    (h : Sure J True p Q) : Careful (fun s => J s.image.typeDef? ∧ s.count = 0) p
      fun a s => (J s.image.typeDef? ∧ Q a) ∧ s.count = 0 :=
  (Careful.counted h 0).mono (fun _ hs => ⟨⟨hs.1, trivial⟩, hs.2⟩) fun _ _ hs => hs

theorem statementUnit_careful (unit : StatementUnit) :
    Careful (fun s => s.count = 0) (statementUnit unit) fun code _ => unit.EnactedBy code := by
  have hbody : Careful (fun s => s.count = 0) (setBody .host) fun _ s => s.count = 0 :=
    (quietly (J := fun _ => True) (setBody_sure .host)).mono (fun _ hs => ⟨trivial, hs⟩)
      fun _ _ hs => hs.2
  have hstmts : Careful (fun s => s.count = 0) (hostStmts unit.stmts) fun bs s =>
      (∃ parts, List.Forall₂ Stmt.EnactedAtTop unit.stmts parts ∧ bs = parts.flatten) ∧ s.count = 0 :=
    (quietly (J := fun _ => True) (hostStmts_sure unit.stmts)).mono (fun _ hs => ⟨trivial, hs⟩)
      fun _ _ hs => ⟨hs.1.2, hs.2⟩
  unfold statementUnit
  refine hbody.bind fun _ => hstmts.bind fun code => stopOnErrors_careful.bind fun _ => ?_
  exact Careful.bind (Q := fun _ _ => ∃ parts, List.Forall₂ Stmt.EnactedAtTop unit.stmts parts ∧
    code = parts.flatten) (Careful.gets fun s hs => hs.1) fun b => Careful.pure fun s hs => hs

theorem declareMembers_careful (unit : DeclarationUnit) :
    Careful (fun _ => True) (declareMembers [] unit.members) fun ds s => ds = unit.types ∧
      (ds.map DeclaredType.path).Nodup ∧ ∀ d ∈ ds, s.image.typeDef? d.path = some d.bare := by
  have hsure := declareMembers_sure unit.members [] (H := True)
  refine Careful.start hsure.grows fun s₀ _ => ?_
  have hdeclares : Declaring s₀ [] (declareMembers [] unit.members) :=
    declareMembers_declares unit.members [] []
  refine ((Careful.mono hsure (fun s _ => ⟨trivial, trivial⟩) fun _ _ h => h).and_triple
    (hdeclares.mono ?_ (fun _ _ h => h) fun _ h => h)).mono (fun _ h => h) ?_
  · rintro s rfl
    exact .refl s
  · rintro ds s ⟨⟨-, hds⟩, hdecl⟩
    exact ⟨hds, hdecl.gains.distinct, fun d hd => (hdecl.gains.found d hd).2⟩

theorem declarationUnit_careful {unit : DeclarationUnit} (hplain : ∀ d ∈ unit.types, d.Plain) :
    Careful (fun s => s.count = 0) (declarationUnit unit) fun code s => unit.FormedBy s.image code := by
  unfold declarationUnit
  refine stopping_careful (declareMembers_careful unit) fun ds hds => ?_
  obtain ⟨-, rfl, hdistinct, -⟩ := hds
  have husings : Careful (fun s => (unit.types = unit.types ∧ (unit.types.map DeclaredType.path).Nodup ∧
      ∀ d ∈ unit.types, s.image.typeDef? d.path = some d.bare) ∧ s.count = 0) (bindUsings unit.usings)
      fun _ s => ((∀ d ∈ unit.types, s.image.typeDef? d.path = some d.bare) ∧ True) ∧ s.count = 0 :=
    (quietly (J := fun T => ∀ d ∈ unit.types, T d.path = some d.bare)
      (bindUsings_sure unit.usings)).mono (fun _ hs => ⟨hs.1.2.2, hs.2⟩) fun _ _ hs => hs
  have hpopulate := Careful.counted (populateTypes_turns hdistinct hplain) 0
  refine husings.bind fun _ => hpopulate.bind fun ps => stopOnErrors_careful.bind fun _ => ?_
  have hbodies := Careful.counted (bindAllBodies_turns ps hdistinct hplain) 0
  refine Careful.bind (hbodies.mono (fun _ hs => ⟨⟨hs.1, trivial⟩, hs.2⟩) fun _ _ hs => hs) fun code =>
    stopOnErrors_careful.bind fun _ => Careful.pure fun s hs => ?_
  exact ⟨hdistinct, hs.1⟩

end Bind

end Chunkwise
