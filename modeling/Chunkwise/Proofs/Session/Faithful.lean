import Chunkwise.Proofs.Faithful.Unit
import Chunkwise.Proofs.Session.Binding

namespace Chunkwise

open History

/-- The step gives up only with a new issue, from whatever state it starts. -/
def Bind.NeverSilent {α : Type} (p : Bind α) : Prop :=
  ∀ b, (p b).1 = none → b.issues.total < (p b).2.issues.total

theorem Sure.neverSilent {α : Type} {p : Bind α} {Q : α → Prop} (h : Sure (fun _ => True) True p Q) :
    p.NeverSilent := by
  intro b
  have hends := h.ends b ⟨trivial, trivial⟩
  revert hends
  rcases p b with ⟨_ | a, b'⟩
  · exact fun hends _ => hends
  · exact fun _ hnone => nomatch hnone

/-- The text is read without a problem, and the unit and the image have the counterpart of what it says. -/
def CompiledUnit.Renders (u : CompiledUnit) (src : Source) (im : Image) : Prop :=
  match u.kind with
  | .statements => ∃ unit, (parseStatements src).clean? = some unit ∧ unit.EnactedBy u.code
  | .declarations => ∃ unit, (parseDeclarations src).clean? = some unit ∧ unit.FormedBy im u.code

/-- What is compiled is complete, and a chunk that is refused by binding has a diagnostic. -/
def Compiled.Faithful (c : Compiled) (src : Source) : Prop :=
  match c.outcome with
  | .unit u => u.Renders src c.session.image
  | .unresolved ds => ds.errors.stored ≠ []
  | .incomplete | .unreadable _ => True

theorem Compiled.Faithful.renders {c : Compiled} {src : Source} {u : CompiledUnit} (h : c.Faithful src)
    (hu : c.outcome.unit? = some u) : u.Renders src c.session.image := by
  unfold Compiled.Faithful at h
  revert h hu
  rcases c.outcome with u' | _ | _ | _
  · rintro h ⟨⟩
    exact h
  all_goals exact fun _ hu => nomatch hu

theorem DeclarationUnit.FormedBy.commit {u : DeclarationUnit} {im : Image} {code : Code}
    (h : u.FormedBy im code) (us : List Using) (paths : List Path) :
    u.FormedBy (im.commit us paths) code := by
  obtain ⟨parts, htypes, hbody⟩ := h.types
  refine ⟨h.distinct, parts, htypes.imp fun d part ht => ?_, hbody⟩
  rwa [Image.typeDef?_commit]

namespace Session

variable {s : Session} {src : Source} {mode : ParseMode}

theorem stored_ofIssues {b : BindState} (hhonest : b.issues.Honest) (hcount : 0 < b.count) :
    (Diagnostics.ofIssues src b.issues).errors.stored ≠ [] := by
  have hstored : b.issues.stored ≠ [] := hhonest hcount
  simpa [Diagnostics.ofIssues, Log.map] using hstored

theorem bind_faithful {kind : UnitKind} {binder : Bind Code} {Q : Code → BindState → Prop}
    (hbinder : Careful (fun b => b.count = 0) binder Q)
    (hunit : ∀ name code b fingerprint, Q code b →
      CompiledUnit.Renders ⟨name, kind, code, fingerprint⟩ src (s.commit b).image) :
    (s.bind src kind binder).Faithful src := by
  have hhonest := (hbinder.grows s.bindStart).honest fun hpos => absurd hpos (Nat.lt_irrefl 0)
  have hends := hbinder.ends s.bindStart rfl
  unfold Session.bind
  unfold bindStart at hhonest hends
  revert hhonest hends
  rcases binder (.start s.image s.registry s.store) with ⟨_ | code, b⟩
  · exact fun hhonest hcount => stored_ofIssues hhonest hcount
  · intro hhonest hends
    dsimp only at hhonest hends ⊢
    by_cases hany : b.issues.hasAny = true
    · rw [if_pos hany]
      exact stored_ofIssues hhonest (of_decide_eq_true hany)
    · rw [if_neg hany]
      have hcount : b.count = 0 := Nat.eq_zero_of_not_pos fun hpos => hany (decide_eq_true hpos)
      exact hunit _ code b _ (hends hcount)

theorem bindParsed_faithful {α : Type} {kind : UnitKind} {parsed : Parsed α} {binder : α → Bind Code}
    (h : ∀ unit, parsed.clean? = some unit → (s.bind src kind (binder unit)).Faithful src) :
    (s.bindParsed src mode kind parsed binder).Faithful src := by
  unfold bindParsed
  split
  · split <;> trivial
  · next hclean =>
    split
    · next unit hunit =>
      refine h unit ?_
      rw [Parsed.clean?, if_neg hclean, hunit]
    · trivial

theorem compile_faithful (s : Session) (src : Source) (chunkClass : ChunkClass) (mode : ParseMode) :
    (s.compile src chunkClass mode).Faithful src := by
  cases chunkClass with
  | endOfInput => trivial
  | invalid => trivial
  | statements =>
    refine bindParsed_faithful fun unit hread => ?_
    exact bind_faithful (Bind.statementUnit_careful unit) fun _ _ _ _ hcode => ⟨unit, hread, hcode⟩
  | declarations =>
    refine bindParsed_faithful fun unit hread => ?_
    have hplain : ∀ d ∈ unit.types, d.Plain := by
      obtain ⟨hclean, hunit⟩ := Parsed.clean?_eq_some.mp hread
      exact plain_of_read hclean hunit
    exact bind_faithful (Bind.declarationUnit_careful hplain) fun _ _ b _ hcode =>
      ⟨unit, hread, hcode.commit b.usings b.declared⟩

end Session

/-- An expression or a statement that is given up leaves an issue, a chunk that is refused by binding has
a diagnostic, and a chunk that is compiled has the counterpart of every part of it, once and in order. -/
theorem binding_faithful :
    (∀ e : Expr, (Bind.expr e).NeverSilent ∧ (Bind.value e).NeverSilent ∧
      ∀ t, (Bind.converted t e).NeverSilent) ∧
    (∀ s : Stmt, s.isEmpty = false → (Bind.stmt s).NeverSilent) ∧
    ∀ (s : Session) (src : Source) (chunkClass : ChunkClass) (mode : ParseMode),
      (s.compile src chunkClass mode).Faithful src := by
  refine ⟨fun e => ⟨?_, ?_, fun t => ?_⟩, fun s hs => ?_, Session.compile_faithful⟩
  · exact (Bind.expr_sure e).neverSilent
  · exact (Bind.value_sure e).neverSilent
  · exact (Bind.converted_sure t e).neverSilent
  · exact (Bind.stmt_sure s hs).neverSilent

/-- A jump that belongs to no loop. -/
def strayBreak : Stmt := .breakLoop (.point 1 1)

/-- A chunk with an empty statement, a loop and nested statements. -/
def counting : Source :=
  ⟨"test", "int n = 0; ; while (n < 9) \x7b if (n == 4) n += 2; else n++; \x7d"⟩

theorem counting_compiled : ((blank.session.compile counting .statements .silent).outcome.unit?.any
    fun u => u.kind = .statements) = true := by
  decide +kernel

/-- The stray jump leaves an issue, and the chunk has the counterpart of its loop. -/
theorem binding_faithful_loop :
    ((Bind.stmt strayBreak blank.session.bindStart).1 = none ∧
      0 < (Bind.stmt strayBreak blank.session.bindStart).2.issues.total) ∧
    ∃ u unit, (blank.session.compile counting .statements .silent).outcome.unit? = some u ∧
      (parseStatements counting).clean? = some unit ∧ unit.EnactedBy u.code := by
  obtain ⟨-, hstmts, hcompile⟩ := binding_faithful
  have hnone : (Bind.stmt strayBreak blank.session.bindStart).1 = none := by decide +kernel
  refine ⟨⟨hnone, hstmts strayBreak rfl _ hnone⟩, ?_⟩
  obtain ⟨u, hu, hkind⟩ := (Option.any_eq_true _ _).mp counting_compiled
  have hall := fun s src chunkClass mode u =>
    @Compiled.Faithful.renders _ _ u (hcompile s src chunkClass mode)
  have hrenders := hall blank.session counting .statements .silent u hu
  unfold CompiledUnit.Renders at hrenders
  rw [of_decide_eq_true hkind] at hrenders
  obtain ⟨unit, hread, hcode⟩ := hrenders
  exact ⟨u, unit, hu, hread, hcode⟩

/-- The type nested in `A` stands before the field of `A` itself. -/
def nestedFirst : Source :=
  ⟨"test", "class A \x7b public class B \x7b public static int x = A.y + 1; \x7d " ++
    "public static int y = 2; \x7d"⟩

def nestedFirstCompiled : Compiled := blank.session.compile nestedFirst .declarations .silent

/-- The name of the slot that a statement sets. -/
def Store.nameSet? (st : Store) : BoundStmt → Option String
  | .expr (.assign (.static slot) _) => (st.slots[slot]?).map Slot.name
  | _ => none

/-- The numbers in a store with the names of their slots. -/
def Store.numbers (st : Store) : List (String × Int64) := st.slots.toList.filterMap fun slot =>
  match slot.value with
  | .int n => some (slot.name, n)
  | _ => none

/-- The shared fields of a chunk with their columns in the text, type by type. -/
def DeclarationUnit.sharedColumns (u : DeclarationUnit) : List (String × UInt32) :=
  u.types.flatMap fun d => (MemberDecl.allDeclarators true d.members).map fun v =>
    (v.name.name, v.name.span.startCol)

/-- The field of the nested type stands first in the text, but it is set last, when `y` is 2 already. -/
theorem nested_set_late :
    (parseDeclarations nestedFirst).clean?.map DeclarationUnit.sharedColumns =
      some [("y", 79), ("x", 46)] ∧
    nestedFirstCompiled.outcome.unit?.map (fun u =>
      u.code.body.filterMap nestedFirstCompiled.session.store.nameSet?) = some ["y", "x"] ∧
    nestedFirstCompiled.outcome.unit?.map (fun u =>
      ((blank.compile nestedFirst .declarations .silent).outcome u ⟨1, none, 0⟩).store.numbers) =
        some [("y", 2), ("x", 3)] := by
  decide +kernel

end Chunkwise
