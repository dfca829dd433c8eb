import Chunkwise.Proofs.Machine.Flow
import Chunkwise.Proofs.Session.History

/-!
Typed code holds no jump outside a loop, and code of a unit holds no return at all. With what
`exec_allows` says about single statements this settles how a body can end: a method that owes a
result returns one, and a unit runs all its statements, unless there is an error.
-/
namespace Chunkwise

namespace Machine

open Run

variable {env : Env} {calls : Calls} {limit : Nat}

/-- The flow does not carry a result. -/
def Flow.IsPlain (flow : Flow) : Prop := ∀ v, flow ≠ .returned v

theorem Flow.IsPlain.leaves {flow flow' : Flow} (h : flow.IsPlain)
    (hl : flow.leaves = some flow') : flow'.IsPlain := by
  cases flow with
  | returned v => exact absurd rfl (h v)
  | out =>
    cases hl
    simp [Flow.IsPlain]
  | next | again => cases hl

theorem isPlain_next : Flow.next.IsPlain := by simp [Flow.IsPlain]

/-- The rounds of a loop end it without a result if its body never has one. -/
theorem rounds_plain {round : Run (Option Flow)}
    (h : Ends round fun flow? => ∀ flow, flow? = some flow → flow.IsPlain) :
    Ends (rounds round limit) Flow.IsPlain := rounds_ends h limit

mutual

theorem exec_plain {c : CodeContext} (hc : c.returns = none) :
    ∀ {s : BoundStmt} {loop : Bool} {Γ Δ : Locals}, s.WellTyped c loop Γ Δ →
      Ends (exec env calls limit s) Flow.IsPlain
  | .expr e, _, _, _, _ => by
    rw [exec]
    exact Ends.andThen fun _ => Ends.andThen fun _ => Ends.pure isPlain_next
  | .capture e, _, _, _, _ => by
    rw [exec]
    exact Ends.andThen fun _ => Ends.andThen fun _ => Ends.andThen fun _ => Ends.pure isPlain_next
  | .throwValue e, _, _, _, _ => by
    rw [exec]
    exact Ends.andThen fun _ => Ends.andThen fun _ => Ends.stop
  | .block body, _, _, _, h => by
    obtain ⟨-, Θ, hbody, -⟩ := h
    rw [exec]
    exact Ends.andThen fun _ => execAll_plain hc hbody
  | .ifElse e yes none, _, _, _, h => by
    obtain ⟨-, ⟨Θ, hyes⟩, -⟩ := h
    rw [exec]
    refine Ends.andThen fun _ => Ends.andThen fun v => ?_
    split
    · exact exec_plain hc hyes
    · exact Ends.pure isPlain_next
  | .ifElse e yes (some no), _, _, _, h => by
    obtain ⟨-, ⟨Θ, hyes⟩, ⟨Ξ, hno⟩, -⟩ := h
    rw [exec]
    refine Ends.andThen fun _ => Ends.andThen fun v => ?_
    split
    · exact exec_plain hc hyes
    · exact exec_plain hc hno
  | .whileDo e body, _, _, _, h => by
    obtain ⟨-, ⟨Θ, hbody⟩, -⟩ := h
    rw [exec]
    refine Ends.andThen fun _ => rounds_plain (Ends.andThen fun _ => Ends.andThen fun v => ?_)
    split
    · refine (exec_plain hc hbody).bind fun flow hflow => Ends.pure fun flow' hl => ?_
      exact hflow.leaves hl
    · refine Ends.pure fun flow' hl => ?_
      cases hl
      exact isPlain_next
  | .doWhile body e, _, _, _, h => by
    obtain ⟨-, ⟨Θ, hbody⟩, -⟩ := h
    rw [exec]
    refine Ends.andThen fun _ => rounds_plain (Ends.andThen fun _ => ?_)
    refine (exec_plain hc hbody).bind fun flow hflow => ?_
    split
    · next hl =>
      refine Ends.pure fun flow' heq => ?_
      cases heq
      exact hflow.leaves hl
    · refine Ends.andThen fun v => ?_
      split
      · exact Ends.pure (by simp)
      · exact Ends.pure (by simp [isPlain_next])
  | .forLoop init e update body, _, _, _, h => by
    obtain ⟨Θ, -, -, -, -, ⟨Ξ, hbody⟩, -⟩ := h
    rw [exec]
    refine Ends.andThen fun _ => Ends.andThen fun _ => rounds_plain (Ends.andThen fun _ => ?_)
    refine Ends.andThen fun b => ?_
    split
    · refine (exec_plain hc hbody).bind fun flow hflow => ?_
      split
      · next hl =>
        refine Ends.pure fun flow' heq => ?_
        cases heq
        exact hflow.leaves hl
      · exact Ends.andThen fun _ => Ends.pure (by simp)
    · exact Ends.pure (by simp [isPlain_next])
  | .breakLoop, _, _, _, _ | .continueLoop, _, _, _, _ => by
    rw [exec]
    exact Ends.andThen fun _ => Ends.pure (by simp [Flow.IsPlain])
  | .returnValue none, _, _, _, h => by
    have hvoid := h.1
    rw [hc] at hvoid
    cases hvoid
  | .returnValue (some e), _, _, _, h => by
    obtain ⟨⟨t, ht, -⟩, -⟩ := h
    rw [hc] at ht
    cases ht

theorem execAll_plain {c : CodeContext} (hc : c.returns = none) :
    ∀ {ss : List BoundStmt} {loop : Bool} {Γ Δ : Locals}, BoundStmt.AllWellTyped c loop ss Γ Δ →
      Ends (execAll env calls limit ss) Flow.IsPlain
  | [], _, _, _, _ => by
    rw [execAll]
    exact Ends.pure isPlain_next
  | s :: rest, _, _, _, ⟨Θ, hs, hrest⟩ => by
    rw [execAll]
    refine (exec_plain hc hs).bind fun flow hflow => ?_
    split
    · exact execAll_plain hc hrest
    · exact Ends.pure hflow

end

theorem execAll_cons (s : BoundStmt) (rest : List BoundStmt) (st : RunState) :
    execAll env calls limit (s :: rest) st =
      match exec env calls limit s st with
      | (.ok .next, m) => execAll env calls limit rest m
      | other => other := by
  rw [execAll]
  change Run.bind _ _ st = _
  unfold Run.bind
  rcases exec env calls limit s st with ⟨e | flow, m⟩
  · rfl
  · cases flow <;> rfl

theorem execAll_append (ss ts : List BoundStmt) (st : RunState) :
    execAll env calls limit (ss ++ ts) st =
      match execAll env calls limit ss st with
      | (.ok .next, m) => execAll env calls limit ts m
      | other => other := by
  induction ss generalizing st with
  | nil => rfl
  | cons s rest ih =>
    rw [List.cons_append, execAll_cons, execAll_cons]
    rcases exec env calls limit s st with ⟨e | flow, m⟩
    · rfl
    · cases flow with
      | next => exact ih m
      | out | again | returned v => rfl

/-- Statements that went on to the end were all executed. -/
theorem execAll_passes {ss ts : List BoundStmt} {s : BoundStmt} {st st' : RunState}
    (h : execAll env calls limit (ss ++ s :: ts) st = (.ok .next, st')) :
    ∃ m m', execAll env calls limit ss st = (.ok .next, m) ∧
      exec env calls limit s m = (.ok .next, m') ∧
      execAll env calls limit ts m' = (.ok .next, st') := by
  rw [execAll_append] at h
  rcases hss : execAll env calls limit ss st with ⟨e | flow, m⟩
  · simp [hss] at h
  · cases flow with
    | out | again | returned v => simp [hss] at h
    | next =>
      simp only [hss, execAll_cons] at h
      rcases hs : exec env calls limit s m with ⟨e | flow, m'⟩
      · simp [hs] at h
      · cases flow with
        | out | again | returned v => simp [hs] at h
        | next =>
          simp only [hs] at h
          exact ⟨m, m', rfl, hs, h⟩

end Machine

open Machine Run

section Bodies

variable {env : Env} {calls : Calls} {limit : Nat}

/-- A body that is typed by a signature returns, or it owes no result and runs to its end. -/
theorem Code.WellTyped.ends {im : Image} {self : Option Path} {params : List Ty}
    {returns : Ty} {code : Code} (h : code.WellTyped im self params returns) :
    Ends (execAll env calls limit code.body)
      fun flow => (∃ v, flow = .returned v) ∨ returns = .void ∧ flow = .next := by
  obtain ⟨-, hend, Δ, hbody⟩ := h
  intro st flow st' hexec
  have hallows := execAll_allows env calls limit code.body st flow st' hexec
  cases flow with
  | returned v => exact .inl ⟨v, rfl⟩
  | out | again =>
    rw [AllAllow, hbody.anyJumps_eq] at hallows
    cases hallows
  | next =>
    refine .inr ⟨?_, rfl⟩
    by_contra hvoid
    rw [AllAllow, hend hvoid] at hallows
    cases hallows

theorem Code.TypedIn.ends {s : Session} {strict : Bool} {code : Code} {y : Option Ty}
    (h : code.TypedIn s strict y) : Ends (execAll env calls limit code.body) (· = .next) := by
  obtain ⟨Δ, hbody⟩ := h
  intro st flow st' hexec
  have hallows := execAll_allows env calls limit code.body st flow st' hexec
  have hplain := execAll_plain rfl hbody st flow st' hexec
  cases flow with
  | next => rfl
  | returned v => exact absurd rfl (hplain v)
  | out | again =>
    rw [AllAllow, hbody.anyJumps_eq] at hallows
    cases hallows

/-- The code of every method and constructor of a sound image is typed by its signature. -/
theorem Image.Sound.codeWellTyped {im : Image} (hs : im.Sound) {p : Path} {d : TypeDef} {m : Method}
    {code : Code} (hd : im.typeDef? p = some d) (hm : m ∈ d.methods ∨ m ∈ d.constructors)
    (hcode : m.body = .code code) :
    ∃ self, code.WellTyped im self m.paramTypes m.returns := by
  have hbodies := hs.bodies p d hd
  rcases hm with hm | hm
  · have hbody := hbodies.methods m hm
    rw [Method.BodyOk, hcode] at hbody
    exact ⟨_, hbody⟩
  · have hbody := hbodies.constructors m hm
    rw [Method.BodyOk, hcode] at hbody
    exact ⟨_, hbody⟩

end Bodies

namespace History

variable {h : History}

/-- Reachability tells how code ends. A statement that cannot complete does not go on, and it leaves
or repeats a loop only where it says so. A method that owes a result returns one, no body ends in a
jump, and a unit goes through all its statements; an error apart. -/
theorem Reachable.bodies_end (hr : h.Reachable) (env : Env) (calls : Calls) (limit : Nat) :
    (∀ p d m code st flow st', h.session.image.typeDef? p = some d →
      m ∈ d.methods ∨ m ∈ d.constructors → m.body = .code code →
      execAll env calls limit code.body st = (.ok flow, st') →
      (∃ v, flow = .returned v) ∨ m.returns = .void ∧ flow = .next) ∧
    (∀ u ∈ h.units, ∀ st flow st', execAll env calls limit u.code.body st = (.ok flow, st') →
      flow = .next ∧ ∀ ss s ts, u.code.body = ss ++ s :: ts →
        ∃ m m', execAll env calls limit ss st = (.ok .next, m) ∧
          exec env calls limit s m = (.ok .next, m') ∧
          execAll env calls limit ts m' = (.ok .next, st')) ∧
    ∀ s st flow st', exec env calls limit s st = (.ok flow, st') →
      (s.completes = false → flow ≠ .next) ∧ (flow = .out → s.breaks = true) ∧
        (flow = .again → s.continues = true) := by
  refine ⟨?_, ?_, ?_⟩
  · intro p d m code st flow st' hd hm hcode hexec
    obtain ⟨self, htyped⟩ := hr.valid.session.sound.codeWellTyped hd hm hcode
    exact htyped.ends st flow st' hexec
  · intro u hu st flow st' hexec
    obtain ⟨y, htyped⟩ := hr.valid.units u hu
    obtain rfl := htyped.ends st flow st' hexec
    refine ⟨rfl, fun ss s ts hsplit => ?_⟩
    rw [hsplit] at hexec
    exact execAll_passes hexec
  · intro s st flow st' hexec
    have hallows := exec_allows env calls limit s st flow st' hexec
    refine ⟨?_, ?_, ?_⟩
    · rintro hstops rfl
      rw [Allows, hstops] at hallows
      cases hallows
    · rintro rfl
      exact hallows
    · rintro rfl
      exact hallows

/-- A class with a loop that is left only by a return. -/
def counter : History := blank.compile
  ⟨"test", "class C { static int F(int n) { while (true) { if (n > 9) return n; n++; } } }"⟩
  .declarations .silent

theorem counter_owes : ((counter.session.image.typeDef? ["C"]).any fun d => d.methods.any fun m =>
    m.returns != .void && match m.body with
      | .code _ => true
      | _ => false) = true := by
  decide +kernel

/-- Its method owes a result and returns one whenever it ends. -/
theorem bodies_end_counter : ∃ d m code, counter.session.image.typeDef? ["C"] = some d ∧
    m ∈ d.methods ∧ m.body = .code code ∧ ∀ env calls limit st flow st',
      execAll env calls limit code.body st = (.ok flow, st') → ∃ v, flow = .returned v := by
  obtain ⟨d, hd, howes⟩ := (Option.any_eq_true _ _).mp counter_owes
  obtain ⟨m, hm, howes⟩ := List.any_eq_true.mp howes
  simp only [Bool.and_eq_true, bne_iff_ne, ne_eq] at howes
  obtain ⟨hvoid, hbody⟩ := howes
  cases hcode : m.body with
  | code code =>
    refine ⟨d, m, code, hd, hm, hcode, ?_⟩
    intro env calls limit st flow st' hexec
    have hreachable : counter.Reachable := .compile (.start _) _ _ _
    rcases (hreachable.bodies_end env calls limit).1 ["C"] d m code st flow st' hd (.inl hm) hcode
      hexec with hreturned | ⟨hreturns, -⟩
    · exact hreturned
    · exact absurd hreturns hvoid
  | native _ | abstractMember | missing => simp [hcode] at hbody

end History

end Chunkwise
