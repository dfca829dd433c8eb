import Chunkwise.Proofs.Faithful.Unit
import Chunkwise.Proofs.Session.Binding

namespace Chunkwise

/-- A chunk that was compiled: what was read, the code of its unit and the variables it declared. -/
inductive BoundChunk where
  | statements (unit : StatementUnit) (code : Code) (created : List PendingVariable)
  | declarations (unit : DeclarationUnit) (code : Code)

namespace BoundChunk

def code : BoundChunk → Code
  | .statements _ code _ | .declarations _ code => code

def created : BoundChunk → List PendingVariable
  | .statements _ _ created => created
  | .declarations _ _ => []

end BoundChunk

namespace Session

variable {s : Session} {src : Source} {chunkClass : ChunkClass} {mode : ParseMode} {b : BindState}
  {code : Code} {e : BoundChunk}

/-- The chunk that compiling a text makes, if it succeeds. -/
def boundChunk? (s : Session) (src : Source) (chunkClass : ChunkClass) : Option BoundChunk :=
  (s.binding? src chunkClass).bind fun (code, b) => match chunkClass with
    | .statements => (parseStatements src).clean?.map fun unit => .statements unit code b.newVariables
    | .declarations => (parseDeclarations src).clean?.map fun unit => .declarations unit code
    | .endOfInput | .invalid => none

/-- The chunk was bound without a problem and ended in this state. -/
inductive Enters (s : Session) : BoundChunk → BindState → Prop where
  | statements {unit : StatementUnit} {code : Code} {b : BindState}
      (run : Bind.statementUnit unit s.bindStart = (some code, b))
      (clean : b.issues.hasAny = false) : Enters s (.statements unit code b.newVariables) b
  | declarations {unit : DeclarationUnit} {code : Code} {b : BindState}
      (plain : ∀ d ∈ unit.types, d.Plain)
      (run : Bind.declarationUnit unit s.bindStart = (some code, b))
      (clean : b.issues.hasAny = false) : Enters s (.declarations unit code) b

theorem enters_of_binding? (h : s.binding? src chunkClass = some (code, b)) :
    ∃ e, s.boundChunk? src chunkClass = some e ∧ e.code = code ∧ s.Enters e b := by
  have hbound := bound_of_binding? h
  unfold boundChunk?
  rw [h]
  cases hbound with
  | statements hread hrun hclean =>
    exact ⟨_, by rw [Option.bind_some, hread]; rfl, rfl, .statements hrun hclean⟩
  | declarations hread hrun hclean =>
    obtain ⟨hok, hunit⟩ := Parsed.clean?_eq_some.mp hread
    exact ⟨_, by rw [Option.bind_some, hread]; rfl, rfl,
      .declarations (plain_of_read hok hunit) hrun hclean⟩

theorem Enters.delivers (h : s.Enters e b) (hs : s.Valid) : b.Delivers s e.code := by
  cases h with
  | statements hrun _ => exact ((Bind.statementUnit_chunk hs _).of_run rfl hrun).2
  | declarations _ hrun _ => exact ((Bind.declarationUnit_chunk hs _).of_run rfl hrun).2

theorem bind_unit (kind : UnitKind) (binder : Bind Code) :
    (s.bind src kind binder).outcome.unit?.map CompiledUnit.code =
      (binder.finished? s.bindStart).map Prod.fst := by
  unfold Session.bind Bind.finished? bindStart
  rcases binder (BindState.start s.image s.registry s.store) with ⟨_ | code, b⟩
  · rfl
  · dsimp only
    split <;> rfl

theorem bindParsed_unit {α : Type} (kind : UnitKind) (parsed : Parsed α) (binder : α → Bind Code) :
    (s.bindParsed src mode kind parsed binder).outcome.unit?.map CompiledUnit.code =
      (parsed.clean?.bind fun unit => (binder unit).finished? s.bindStart).map Prod.fst := by
  unfold bindParsed Parsed.clean?
  split
  · split <;> rfl
  · split
    · next hunit => rw [hunit, bind_unit, Option.bind_some]
    · next hunit => rw [hunit]; rfl

theorem compile_unit (s : Session) (src : Source) (chunkClass : ChunkClass) (mode : ParseMode) :
    (s.compile src chunkClass mode).outcome.unit?.map CompiledUnit.code =
      (s.binding? src chunkClass).map Prod.fst := by
  cases chunkClass with
  | endOfInput => rfl
  | invalid => rfl
  | statements => exact bindParsed_unit .statements _ Bind.statementUnit
  | declarations => exact bindParsed_unit .declarations _ Bind.declarationUnit

end Session

namespace History

variable {h : History} {log : List BoundChunk} {src : Source} {chunkClass : ChunkClass}
  {mode : ParseMode}

/-- A chronicle of a history. -/
inductive Chronicle : History → List BoundChunk → Prop where
  | start (settings : Settings) : Chronicle (start settings) []
  | compile {h : History} {log : List BoundChunk} (chronicle : Chronicle h log) (src : Source)
      (chunkClass : ChunkClass) (mode : ParseMode) :
      Chronicle (h.compile src chunkClass mode) (log ++ (h.session.boundChunk? src chunkClass).toList)
  | run {h : History} {log : List BoundChunk} (chronicle : Chronicle h log) {u : CompiledUnit}
      (mem : u ∈ h.units) (limits : RunLimits) : Chronicle (h.run u limits) log

theorem Reachable.chronicle (hr : h.Reachable) : ∃ log, h.Chronicle log := by
  induction hr with
  | start settings => exact ⟨[], .start settings⟩
  | compile _ src chunkClass mode ih =>
    obtain ⟨log, hlog⟩ := ih
    exact ⟨_, .compile hlog src chunkClass mode⟩
  | run _ hmem limits ih =>
    obtain ⟨log, hlog⟩ := ih
    exact ⟨log, .run hlog hmem limits⟩

theorem Chronicle.reachable (hc : h.Chronicle log) : h.Reachable := by
  induction hc with
  | start settings => exact .start settings
  | compile _ src chunkClass mode ih => exact .compile ih src chunkClass mode
  | run _ hmem limits ih => exact .run ih hmem limits

theorem compile_units (h : History) (src : Source) (chunkClass : ChunkClass) (mode : ParseMode) :
    (h.compile src chunkClass mode).units =
      h.units ++ (h.session.compile src chunkClass mode).outcome.unit?.toList := by
  unfold compile CompileOutcome.unit?
  dsimp only
  split <;> simp_all

/-- A chunk enters the chronicle with its unit, or the session is what it was and nothing enters. -/
theorem compile_chronicled (hv : h.Valid) (src : Source) (chunkClass : ChunkClass) (mode : ParseMode) :
    (∃ e b, h.session.boundChunk? src chunkClass = some e ∧ h.session.Enters e b ∧
      (h.compile src chunkClass mode).session = h.session.commit b ∧
      (h.compile src chunkClass mode).units.map CompiledUnit.code =
        h.units.map CompiledUnit.code ++ [e.code]) ∨
    h.session.boundChunk? src chunkClass = none ∧
      (h.compile src chunkClass mode).session = h.session ∧
      (h.compile src chunkClass mode).units = h.units := by
  have hsession := Session.compile_session hv.session src chunkClass mode
  have hunit := Session.compile_unit h.session src chunkClass mode
  have hunits := h.compile_units src chunkClass mode
  cases hb : h.session.binding? src chunkClass with
  | none =>
    rw [hb] at hsession hunit
    have hnone : (h.session.compile src chunkClass mode).outcome.unit? = none :=
      Option.map_eq_none_iff.mp hunit
    rw [hnone] at hunits
    exact .inr ⟨by rw [Session.boundChunk?, hb]; rfl, hsession, by simpa using hunits⟩
  | some x =>
    obtain ⟨code, b⟩ := x
    rw [hb] at hsession hunit
    obtain ⟨u, hu, hcode⟩ := Option.map_eq_some_iff.mp hunit
    obtain ⟨e, he, hsame, henters⟩ := Session.enters_of_binding? hb
    rw [hu] at hunits
    exact .inl ⟨e, b, he, henters, hsession, by simp [hunits, hcode, hsame]⟩

theorem Chronicle.units (hc : h.Chronicle log) :
    h.units.map CompiledUnit.code = log.map BoundChunk.code := by
  induction hc with
  | start settings => rfl
  | compile hc src chunkClass mode ih =>
    rcases compile_chronicled hc.reachable.valid src chunkClass mode with
      ⟨e, b, he, -, -, hunits⟩ | ⟨hnone, -, hunits⟩
    · rw [hunits, he, ih]
      simp
    · rw [hunits, hnone, ih]
      simp
  | run _ _ _ ih => exact ih

end History

end Chunkwise
