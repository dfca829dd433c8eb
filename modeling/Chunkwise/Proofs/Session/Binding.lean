import Chunkwise.Proofs.Session.History

namespace Chunkwise

/-- What was read, if nothing is wrong with it. -/
def Parsed.clean? {α : Type} (parsed : Parsed α) : Option α :=
  if parsed.diagnostics.hasErrors then none else parsed.unit

theorem Parsed.clean?_eq_some {α : Type} {parsed : Parsed α} {a : α} :
    parsed.clean? = some a ↔ parsed.diagnostics.hasErrors = false ∧ parsed.unit = some a := by
  unfold clean?
  split <;> simp_all

/-- The code of a binder that found no problem, and the state it ended in. -/
def Bind.finished? (binder : Bind Code) (s : BindState) : Option (Code × BindState) :=
  match binder s with
  | (some code, b) => if b.issues.hasAny then none else some (code, b)
  | (none, _) => none

theorem Bind.finished?_eq_some {binder : Bind Code} {s b : BindState} {code : Code} :
    binder.finished? s = some (code, b) ↔ binder s = (some code, b) ∧ b.issues.hasAny = false := by
  unfold finished?
  split
  · next heq =>
    split
    · grind
    · grind
  · grind

namespace Session

/-- The state in which a chunk starts to be bound. -/
def bindStart (s : Session) : BindState := .start s.image s.registry s.store

/-- The binding of a chunk that succeeds. -/
def binding? (s : Session) (src : Source) : ChunkClass → Option (Code × BindState)
  | .statements => (parseStatements src).clean?.bind fun unit =>
      (Bind.statementUnit unit).finished? s.bindStart
  | .declarations => (parseDeclarations src).clean?.bind fun unit =>
      (Bind.declarationUnit unit).finished? s.bindStart
  | .endOfInput | .invalid => none

/-- The session with a binding, if there is one. -/
def withBinding (s : Session) : Option (Code × BindState) → Session
  | some (_, b) => s.commit b
  | none => s

variable {s : Session} {src : Source} {chunkClass : ChunkClass} {mode : ParseMode} {code : Code}
  {b : BindState}

theorem bind_session (kind : UnitKind) {binder : Bind Code} (h : Bind.Chunk s binder) :
    (s.bind src kind binder).session = s.withBinding (binder.finished? s.bindStart) := by
  have hrun := h _ rfl
  unfold Session.bind Bind.finished? bindStart
  revert hrun
  rcases binder (BindState.start s.image s.registry s.store) with ⟨_ | code, b⟩
  · exact rollback_eq
  · rintro ⟨hnone, -⟩
    simp only [hnone, Bool.false_eq_true, if_false, withBinding]

theorem bindParsed_session {α : Type} (kind : UnitKind) (parsed : Parsed α) {binder : α → Bind Code}
    (h : ∀ a, Bind.Chunk s (binder a)) : (s.bindParsed src mode kind parsed binder).session =
      s.withBinding (parsed.clean?.bind fun unit => (binder unit).finished? s.bindStart) := by
  unfold bindParsed Parsed.clean?
  split
  · split <;> rfl
  · split
    · next hunit => rw [hunit, bind_session kind (h _), Option.bind_some]
    · next hunit => rw [hunit, Option.bind_none, withBinding]

/-- A chunk is committed if its binding succeeds, and no trace of it is left otherwise. -/
theorem compile_session (hs : s.Valid) (src : Source) (chunkClass : ChunkClass) (mode : ParseMode) :
    (s.compile src chunkClass mode).session = s.withBinding (s.binding? src chunkClass) := by
  cases chunkClass with
  | endOfInput => rfl
  | invalid => rfl
  | statements => exact bindParsed_session .statements _ (Bind.statementUnit_chunk hs)
  | declarations => exact bindParsed_session .declarations _ (Bind.declarationUnit_chunk hs)

/-- A binding that succeeds is one of a unit without a problem. -/
inductive Bound (s : Session) (src : Source) (code : Code) (b : BindState) : ChunkClass → Prop where
  | statements {unit : StatementUnit} (read : (parseStatements src).clean? = some unit)
      (run : Bind.statementUnit unit s.bindStart = (some code, b))
      (clean : b.issues.hasAny = false) : Bound s src code b .statements
  | declarations {unit : DeclarationUnit} (read : (parseDeclarations src).clean? = some unit)
      (run : Bind.declarationUnit unit s.bindStart = (some code, b))
      (clean : b.issues.hasAny = false) : Bound s src code b .declarations

theorem bound_of_binding? (h : s.binding? src chunkClass = some (code, b)) :
    s.Bound src code b chunkClass := by
  cases chunkClass with
  | endOfInput => cases h
  | invalid => cases h
  | statements =>
    obtain ⟨unit, hread, h⟩ := Option.bind_eq_some_iff.mp h
    obtain ⟨hrun, hclean⟩ := Bind.finished?_eq_some.mp h
    exact .statements hread hrun hclean
  | declarations =>
    obtain ⟨unit, hread, h⟩ := Option.bind_eq_some_iff.mp h
    obtain ⟨hrun, hclean⟩ := Bind.finished?_eq_some.mp h
    exact .declarations hread hrun hclean

theorem Bound.delivers (h : s.Bound src code b chunkClass) (hs : s.Valid) : b.Delivers s code := by
  cases h with
  | statements _ hrun _ => exact ((Bind.statementUnit_chunk hs _).of_run rfl hrun).2
  | declarations _ hrun _ => exact ((Bind.declarationUnit_chunk hs _).of_run rfl hrun).2

end Session

end Chunkwise
