import Chunkwise.Proofs.Machine.Later
import Chunkwise.Proofs.Session.Initial

/-!
A history is a session together with the units compiled on it so far. It goes on by compiling any
chunk, whether that succeeds or not, or by running any of the units, however the run ends. In every
history the session is valid and the code of every unit is typed by slots that exist. Whether these
slots are still in use is another matter, since a later chunk may release them.
-/
namespace Chunkwise

structure History where
  session : Session
  units : List CompiledUnit

/-- What bounds a run from outside. -/
structure RunLimits where
  maxDepth : Nat
  /-- The number of polls before the run reads as cancelled. -/
  cancelAfter : Option Nat
  /-- The greatest number of rounds of a loop. -/
  rounds : Nat

namespace History

def start (settings : Settings) : History := ⟨(Evaluator.ofSettings settings).session, []⟩

def compile (h : History) (src : Source) (chunkClass : ChunkClass) (mode : ParseMode) : History :=
  let c := h.session.compile src chunkClass mode
  ⟨c.session, match c.outcome with
    | .unit u => h.units ++ [u]
    | _ => h.units⟩

def outcome (h : History) (u : CompiledUnit) (limits : RunLimits) : Machine.Outcome :=
  Machine.run ⟨h.session.image, limits.maxDepth, limits.cancelAfter⟩ limits.rounds h.session.store
    u.code

def run (h : History) (u : CompiledUnit) (limits : RunLimits) : History :=
  { h with session := { h.session with store := (h.outcome u limits).store } }

/-- The histories of a session. -/
inductive Reachable : History → Prop where
  | start (settings : Settings) : Reachable (start settings)
  | compile {h : History} (reachable : Reachable h) (src : Source) (chunkClass : ChunkClass)
      (mode : ParseMode) : Reachable (h.compile src chunkClass mode)
  | run {h : History} (reachable : Reachable h) {u : CompiledUnit} (mem : u ∈ h.units)
      (limits : RunLimits) : Reachable (h.run u limits)

end History

/-- The context of a unit in a session whose slots are within reach if they exist. -/
def Session.unitContext (s : Session) (strict : Bool) (code : Code) (y : Option Ty) : CodeContext :=
  ⟨s.image, s.store.Offers strict, none, code.locals, none, y⟩

/-- The code of a unit is typed and captures values of a type, if it captures any. -/
def Code.TypedIn (s : Session) (strict : Bool) (code : Code) (y : Option Ty) : Prop :=
  ∃ Δ, BoundStmt.AllWellTyped (s.unitContext strict code y) false code.body .none Δ

namespace Session

variable {s : Session} {b : BindState} {code : Code} {y : Option Ty}

theorem Valid.later (hs : s.Valid) {st : Store} (hl : s.store.Later st) :
    ({ s with store := st } : Session).Valid where
  closed := hs.closed
  sound := hs.sound
  usings := hs.usings
  types i slot hi := by
    obtain ⟨slot', hi', hface⟩ := hl.slot_back hi
    rw [← Slot.type_of_face hface]
    exact hs.types i slot' hi'
  statics i t hi := (hs.statics i t hi).later hl
  registered name v hv := by
    obtain ⟨t, ht⟩ := hs.registered name v hv
    exact ⟨t, ht.later hl⟩
  apart := hs.apart
  distinct := hs.distinct

theorem grows_commit (h : b.Delivers s code) : s.image.Grows (s.commit b).image :=
  h.grows.trans (Image.grows_commit b.image b.usings b.declared)

end Session

namespace Code.TypedIn

variable {s : Session} {b : BindState} {code code' : Code} {strict : Bool} {y : Option Ty}

theorem later (h : code.TypedIn s strict y) {st : Store} (hl : s.store.Later st) :
    code.TypedIn { s with store := st } strict y := by
  obtain ⟨Δ, hcode⟩ := h
  refine ⟨Δ, hcode.weaken ?_⟩
  exact ⟨.refl _, rfl, fun _ _ _ ho => ho.later hl, Nat.le_refl _, rfl, fun _ h => h⟩

/-- Code typed before a commit stays typed, though slots it mentions may be out of use. -/
theorem commit (h : code'.TypedIn s false y) (hb : b.Delivers s code) :
    code'.TypedIn (s.commit b) false y := by
  obtain ⟨Δ, hcode⟩ := h
  refine ⟨Δ, hcode.weaken ?_⟩
  refine ⟨Session.grows_commit hb, rfl, fun _ _ _ ho => ?_, Nat.le_refl _, rfl, fun _ h => h⟩
  exact Session.offers_commit hb (hb.store.offers ho) (by simp)

theorem of_delivers (hb : b.Delivers s code) : ∃ y, code.TypedIn (s.commit b) false y := by
  obtain ⟨y, Δ, hcode⟩ := hb.code
  refine ⟨y, Δ, hcode.weaken ?_⟩
  refine ⟨Image.grows_commit _ _ _, rfl, fun _ _ _ ho => ?_, Nat.le_refl _, rfl, fun _ h => h⟩
  exact Session.offers_commit hb ho.lenient (by simp)

theorem strictly (h : code.TypedIn s false y)
    (hlive : ∀ i ∈ code.slots, s.store.isReleased i = false) : code.TypedIn s true y := by
  obtain ⟨Δ, hcode⟩ := h
  refine ⟨Δ, hcode.weaken ?_⟩
  refine ⟨.refl _, rfl, fun i hi t ho => ?_, Nat.le_refl _, rfl, fun _ h => h⟩
  obtain ⟨slot, hslot, ht, -⟩ := ho
  refine ⟨slot, hslot, ht, fun _ => ?_⟩
  simpa [Store.isReleased, hslot] using hlive i hi

end Code.TypedIn

namespace History

/-- A valid session and units that are typed in it. -/
structure Valid (h : History) : Prop where
  session : h.session.Valid
  units : ∀ u ∈ h.units, ∃ y, u.code.TypedIn h.session false y

variable {h : History}

theorem start_valid (settings : Settings) : (start settings).Valid :=
  ⟨Evaluator.ofSettings_valid settings, fun u hu => by cases hu⟩

theorem compile_cases (hv : h.Valid) (src : Source) (chunkClass : ChunkClass) (mode : ParseMode) :
    (∃ u b, (h.session.compile src chunkClass mode).outcome = .unit u ∧
      b.Delivers h.session u.code ∧
      h.compile src chunkClass mode = ⟨h.session.commit b, h.units ++ [u]⟩) ∨
    (∀ u, (h.session.compile src chunkClass mode).outcome ≠ .unit u) ∧
      h.compile src chunkClass mode = h := by
  rcases Session.compile_settled hv.session src chunkClass mode with
    ⟨u, b, hout, hdelivers, hsession⟩ | ⟨hout, hsession⟩
  · refine .inl ⟨u, b, hout, hdelivers, ?_⟩
    simp only [compile, hout, hsession]
  · refine .inr ⟨hout, ?_⟩
    simp only [compile, hsession]

theorem compile_valid (hv : h.Valid) (src : Source) (chunkClass : ChunkClass) (mode : ParseMode) :
    (h.compile src chunkClass mode).Valid := by
  rcases compile_cases hv src chunkClass mode with ⟨u, b, -, hdelivers, heq⟩ | ⟨-, heq⟩
  · rw [heq]
    refine ⟨Session.commit_valid hv.session hdelivers, fun u' hu' => ?_⟩
    rcases List.mem_append.mp hu' with hu' | hu'
    · obtain ⟨y, hy⟩ := hv.units u' hu'
      exact ⟨y, hy.commit hdelivers⟩
    · rw [List.mem_singleton.mp hu']
      exact Code.TypedIn.of_delivers hdelivers
  · rw [heq]
    exact hv

theorem outcome_later (h : History) (u : CompiledUnit) (limits : RunLimits) :
    h.session.store.Later (h.outcome u limits).store := Machine.run_later _ _ _ _

theorem run_valid (hv : h.Valid) (u : CompiledUnit) (limits : RunLimits) :
    (h.run u limits).Valid := by
  have hl := h.outcome_later u limits
  refine ⟨hv.session.later hl, fun u' hu' => ?_⟩
  obtain ⟨y, hy⟩ := hv.units u' hu'
  exact ⟨y, hy.later hl⟩

theorem Reachable.valid (hr : h.Reachable) : h.Valid := by
  induction hr with
  | start settings => exact start_valid settings
  | compile _ src chunkClass mode ih => exact compile_valid ih src chunkClass mode
  | run _ _ limits ih => exact run_valid ih _ limits

end History

/-- The text was incomplete, unreadable or wrong. -/
def CompileOutcome.failed : CompileOutcome → Bool
  | .unit _ => false
  | .incomplete | .unreadable _ | .unresolved _ => true

def CompileOutcome.unit? : CompileOutcome → Option CompiledUnit
  | .unit u => some u
  | _ => none

theorem CompileOutcome.unit?_eq_some {o : CompileOutcome} {u : CompiledUnit} :
    o.unit? = some u ↔ o = .unit u := by
  cases o <;> simp [unit?]

namespace History

variable {h : History}

/-- A chunk that fails leaves the session exactly as it was. -/
theorem Reachable.failed_chunk_atomic (hr : h.Reachable) (src : Source) (chunkClass : ChunkClass)
    (mode : ParseMode) (hfail : (h.session.compile src chunkClass mode).outcome.failed = true) :
    (h.session.compile src chunkClass mode).session = h.session := by
  rcases Session.compile_settled hr.valid.session src chunkClass mode with
    ⟨u, b, hout, -, -⟩ | ⟨-, hsession⟩
  · rw [hout] at hfail
    cases hfail
  · exact hsession

def blank : History := start { Settings.default with defaultUsings := [] }

/-- Two types of one name, in a namespace that the chunk has just declared. -/
theorem failed_chunk_atomic_duplicate :
    (blank.session.compile ⟨"test", "namespace N \x7b class A \x7b \x7d class A \x7b \x7d \x7d"⟩
      .declarations .silent).session = blank.session :=
  Reachable.failed_chunk_atomic (.start _) _ _ _ (by decide +kernel)

end History

end Chunkwise
