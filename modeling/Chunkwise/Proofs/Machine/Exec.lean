import Chunkwise.Proofs.Machine.Eval
import Chunkwise.Proofs.Machine.Flow

namespace Chunkwise

/-- A state that fits a body when the given locals are set. -/
structure CodeContext.Holds (strict : Bool) (c : CodeContext) (Γ : Locals) (s : RunState) : Prop where
  typing : (c.typing Γ).Holds strict s
  size : s.frame.locals.size = c.size
  result : ∀ v, s.frame.result = some v → ∃ t, c.yields = some t ∧
    v.Belongs strict c.image s.store.objects t

theorem CodeContext.Holds.le {strict : Bool} {c : CodeContext} {Γ Δ : Locals} {s : RunState}
    (h : c.Holds strict Δ s) (hle : Γ.Le Δ) : c.Holds strict Γ s :=
  ⟨⟨h.typing.store, h.typing.slots, fun i t hi => h.typing.locals i t (hle i t hi), h.typing.self⟩,
    h.size, h.result⟩

namespace Run

variable {α β : Type} {strict : Bool} {im : Image}

/-- The contract of statements, with what is to hold before and after. -/
def Triple (strict : Bool) (im : Image) (P : RunState → Prop) (p : Run α)
    (Q : α → RunState → Prop) : Prop :=
  ∀ s, P s → match p s with
    | (.ok a, s') => Q a s' ∧ s.store.Later s'.store
    | (.error e, s') => e.Expected strict ∧ s'.store.Ok strict im ∧ s.store.Later s'.store

namespace Triple

variable {P P' : RunState → Prop} {p : Run α} {Q Q' : α → RunState → Prop}
  {R : β → RunState → Prop}

theorem mono (h : Triple strict im P p Q) (hP : ∀ s, P' s → P s) (hQ : ∀ a s, Q a s → Q' a s) :
    Triple strict im P' p Q' := by
  intro s hs
  have hp := h s (hP s hs)
  revert hp
  rcases p s with ⟨_ | a, s'⟩
  · exact id
  · exact fun ⟨ha, hl⟩ => ⟨hQ a s' ha, hl⟩

theorem pure {a : α} (h : ∀ s, P s → Q a s) : Triple strict im P (Pure.pure a : Run α) Q :=
  fun s hs => ⟨h s hs, .refl _⟩

theorem bind {f : α → Run β} (hp : Triple strict im P p Q)
    (hf : ∀ a, Triple strict im (Q a) (f a) R) : Triple strict im P (p >>= f) R := by
  intro s hs
  have h := hp s hs
  change match Run.bind p f s with
    | (.ok a, s') => R a s' ∧ s.store.Later s'.store
    | (.error e, s') => e.Expected strict ∧ s'.store.Ok strict im ∧ s.store.Later s'.store
  unfold Run.bind
  revert h
  rcases p s with ⟨_ | a, s'⟩
  · exact id
  · rintro ⟨ha, hl⟩
    have h' := hf a s' ha
    revert h'
    simp only
    rcases f a s' with ⟨_ | b, s''⟩
    · exact fun ⟨he, hok, hl'⟩ => ⟨he, hok, hl.trans hl'⟩
    · exact fun ⟨hb, hl'⟩ => ⟨hb, hl.trans hl'⟩

theorem ends {F : α → Prop} (h : Triple strict im P p Q) (he : Ends p F) :
    Triple strict im P p fun a s => Q a s ∧ F a := by
  intro s hs
  have hp := h s hs
  have hf := he s
  revert hp hf
  rcases p s with ⟨_ | a, s'⟩
  · exact fun hp _ => hp
  · exact fun ⟨ha, hl⟩ hf => ⟨⟨ha, hf a s' rfl⟩, hl⟩

end Triple

theorem Sound.triple {c : CodeContext} {Γ : Locals} {p : Run α} {Q : α → Store → Prop}
    (h : ∀ st, Sound strict (c.typing Γ) st p Q) :
    Triple strict c.image (c.Holds strict Γ) p fun a s => c.Holds strict Γ s ∧ Q a s.store := by
  intro s hs
  have hp := h s.store s hs.typing (.refl _)
  revert hp
  rcases p s with ⟨_ | a, s'⟩
  · exact id
  · rintro ⟨hs', hst, ha⟩
    refine ⟨⟨⟨hs', hst.size.trans hs.size, fun v hv => ?_⟩, ha⟩, hst.store⟩
    obtain ⟨t, ht, hb⟩ := hs.result v (hst.result ▸ hv)
    exact ⟨t, ht, hb.later hst.store⟩

end Run

namespace Machine

open Run

variable {strict : Bool} {c : CodeContext} {Γ Δ Θ : Locals} {env : Env} {calls : Calls}
  {limit : Nat}

theorem poll_triple {P : RunState → Prop} {im : Image} (hok : ∀ s, P s → s.store.Ok strict im)
    (h : ∀ s n, P s → P { s with polls := n }) :
    Triple strict im P (poll env) fun _ => P := by
  intro s hs
  unfold poll
  cases env.cancelAfter with
  | none => exact ⟨h s _ hs, .refl _⟩
  | some k =>
    by_cases hk : k ≤ s.polls
    · simp only [hk, if_true]
      exact ⟨trivial, hok s hs, .refl _⟩
    · simp only [hk, if_false]
      exact ⟨h s _ hs, .refl _⟩

theorem holds_polls {s : RunState} (h : c.Holds strict Γ s) (n : Nat) :
    c.Holds strict Γ { s with polls := n } :=
  ⟨⟨h.typing.store, h.typing.slots, h.typing.locals, h.typing.self⟩, h.size, h.result⟩

theorem polled {α : Type} {p : Run α} {Q : α → RunState → Prop}
    (h : Triple strict c.image (c.Holds strict Γ) p Q) :
    Triple strict c.image (c.Holds strict Γ) (do poll env; p) Q :=
  (poll_triple (P := c.Holds strict Γ) (fun _ hs => hs.typing.store)
    fun _ n hs => holds_polls hs n).bind fun _ => h

/-- The state after a statement, by where control goes. -/
def After (strict : Bool) (c : CodeContext) (Γ Δ : Locals) (flow : Flow) (s : RunState) : Prop :=
  match flow with
  | .next => c.Holds strict Δ s
  | .out | .again => c.Holds strict Γ s
  | .returned v => c.Holds strict Γ s ∧ ∃ t, c.returns = some t ∧
      v.Belongs strict c.image s.store.objects t

theorem After.mono {Γ' Δ' : Locals} {flow : Flow} {s : RunState} (h : After strict c Γ Δ flow s)
    (hΓ : Γ'.Le Γ) (hΔ : Δ'.Le Δ) : After strict c Γ' Δ' flow s := by
  cases flow with
  | next => exact CodeContext.Holds.le h hΔ
  | out | again => exact CodeContext.Holds.le h hΓ
  | returned v => exact ⟨h.1.le hΓ, h.2⟩

theorem After.store {flow : Flow} {s : RunState} (h : After strict c Γ Δ flow s) :
    s.store.Ok strict c.image := by
  cases flow with
  | next => exact CodeContext.Holds.typing h |>.store
  | out | again => exact CodeContext.Holds.typing h |>.store
  | returned v => exact h.1.typing.store

theorem After.leaves {flow : Flow} {s : RunState} (h : After strict c Γ Δ flow s) (hle : Γ.Le Δ) :
    match flow.leaves with
    | some flow' => After strict c Γ Γ flow' s
    | none => c.Holds strict Γ s := by
  cases flow with
  | next => exact CodeContext.Holds.le h hle
  | out | again => exact h
  | returned v => exact h

theorem rounds_sound {round : Run (Option Flow)}
    (h : Triple strict c.image (c.Holds strict Γ) round fun flow? s =>
      match flow? with
      | some flow => After strict c Γ Γ flow s
      | none => c.Holds strict Γ s) (n : Nat) :
    Triple strict c.image (c.Holds strict Γ) (rounds round n) (After strict c Γ Γ) := by
  induction n with
  | zero => exact fun s hs => ⟨trivial, hs.typing.store, .refl _⟩
  | succ n ih =>
    rw [rounds]
    refine h.bind fun flow? => ?_
    cases flow? with
    | none => exact ih
    | some flow => exact Triple.pure fun _ hs => hs

mutual

theorem le_of_wellTyped : ∀ {s : BoundStmt} {loop : Bool} {Γ Δ : Locals},
    s.WellTyped c loop Γ Δ → Γ.Le Δ
  | .expr _, _, _, _, h => by
    rcases h with ⟨-, rfl⟩ | ⟨i, v, t, -, -, -, hi, rfl⟩
    · exact .refl _
    · exact Locals.le_set hi
  | .capture _, _, _, _, h | .throwValue _, _, _, _, h | .returnValue none, _, _, _, h
  | .returnValue (some _), _, _, _, h | .breakLoop, _, _, _, h | .continueLoop, _, _, _, h =>
    h.2 ▸ .refl _
  | .block _, _, _, _, h => h.1
  | .ifElse _ _ none, _, _, _, h | .whileDo _ _, _, _, _, h | .doWhile _ _, _, _, _, h =>
    h.2.2 ▸ .refl _
  | .ifElse _ _ (some _), _, _, _, h => h.2.2.2 ▸ .refl _
  | .forLoop _ _ _ _, _, _, _, ⟨_, _, _, _, _, _, h⟩ => h ▸ .refl _

theorem le_of_allWellTyped : ∀ {ss : List BoundStmt} {loop : Bool} {Γ Δ : Locals},
    BoundStmt.AllWellTyped c loop ss Γ Δ → Γ.Le Δ
  | [], _, _, _, h => h ▸ .refl _
  | _ :: _, _, _, _, ⟨_, hs, hrest⟩ => (le_of_wellTyped hs).trans (le_of_allWellTyped hrest)

end

theorem eval_triple (h : Ready strict c.image env calls) {e : BoundExpr} {t : Ty}
    (he : e.HasType (c.typing Γ) t) :
    Triple strict c.image (c.Holds strict Γ) (eval env calls e) fun v s =>
      c.Holds strict Γ s ∧ v.Belongs strict c.image s.store.objects t :=
  Sound.triple fun _ => eval_sound h he

theorem fits_triple (h : Ready strict c.image env calls) {e : BoundExpr} {t : Ty}
    (he : e.Fits (c.typing Γ) t) :
    Triple strict c.image (c.Holds strict Γ) (eval env calls e) fun v s =>
      c.Holds strict Γ s ∧ v.Belongs strict c.image s.store.objects t := by
  obtain ⟨u, he, hu⟩ := he
  exact (eval_triple h he).mono (fun _ hs => hs) fun v s hv => ⟨hv.1, hv.2.passes h.sound hu⟩

/-- The first write to a local brings it into the context. -/
theorem saveNew_triple {i : Nat} {t : Ty} {v : Value} (hi : i < c.size) (hΓ : Γ i = none) :
    Triple strict c.image
      (fun s => c.Holds strict Γ s ∧ v.Belongs strict c.image s.store.objects t)
      (save (.frame i) v) fun _ => c.Holds strict (Γ.set i t) := by
  rintro s ⟨hs, hv⟩
  refine ⟨⟨⟨hs.typing.store, hs.typing.slots, fun j u hj => ?_, hs.typing.self⟩, ?_, hs.result⟩,
    .refl _⟩
  · simp only [Array.getElem?_modify]
    by_cases hij : j = i
    · subst hij
      obtain rfl : t = u := by simpa [CodeContext.typing, Locals.set] using hj
      have hlt : j < s.frame.locals.size := hs.size ▸ hi
      exact ⟨v, by simp [Array.getElem?_eq_getElem hlt], hv⟩
    · have hj' : Γ j = some u := by simpa [CodeContext.typing, Locals.set, hij] using hj
      obtain ⟨w, hw, hb⟩ := hs.typing.locals j u hj'
      exact ⟨w, by simp [Ne.symm hij, hw], hb⟩
  · simpa using hs.size

/-- An expression statement always goes on to the next. -/
theorem execExpr_sound (h : Ready strict c.image env calls) {e : BoundExpr} {loop : Bool}
    (he : (BoundStmt.expr e).WellTyped c loop Γ Δ) :
    Triple strict c.image (c.Holds strict Γ) (exec env calls limit (.expr e)) fun flow s =>
      flow = .next ∧ c.Holds strict Δ s := by
  rw [exec]
  refine polled ?_
  rcases he with ⟨⟨t, he⟩, rfl⟩ | ⟨i, v, t, rfl, hv, hi, hΓ, rfl⟩
  · exact (eval_triple h he).bind fun _ => Triple.pure fun _ hs => ⟨rfl, hs.1⟩
  · rw [eval, locate]
    have hset : Triple strict c.image (c.Holds strict Γ)
        (do
          let w ← eval env calls v
          save (.frame i) w
          Pure.pure w) fun _ => c.Holds strict (Γ.set i t) :=
      (fits_triple h hv).bind fun w => (saveNew_triple hi hΓ).bind fun _ =>
        Triple.pure fun _ hs => hs
    exact Triple.bind hset fun _ => Triple.pure fun _ hs => ⟨rfl, hs⟩

theorem execEach_sound (h : Ready strict c.image env calls) : ∀ {ss : List BoundStmt} {Γ Δ : Locals},
    (∀ s ∈ ss, ∃ e, s = .expr e) → BoundStmt.AllWellTyped c false ss Γ Δ →
    Triple strict c.image (c.Holds strict Γ) (execEach env calls limit ss) fun _ =>
      c.Holds strict Δ
  | [], _, _, _, hss => by
    rw [execEach, show _ = _ from hss]
    exact Triple.pure fun _ hs => hs
  | s :: rest, _, _, hexpr, ⟨Θ, hs, hrest⟩ => by
    obtain ⟨e, rfl⟩ := hexpr s (by simp)
    rw [execEach]
    refine (execExpr_sound h hs).bind fun flow => ?_
    exact (execEach_sound h (fun s hs => hexpr s (by simp [hs])) hrest).mono
      (fun _ hs => hs.2) fun _ _ hs => hs

theorem test_sound (h : Ready strict c.image env calls) {e : Option BoundExpr}
    (he : ∀ x, e = some x → x.HasType (c.typing Γ) .bool) :
    Triple strict c.image (c.Holds strict Γ) (test env calls e) fun _ => c.Holds strict Γ := by
  cases e with
  | none => exact Triple.pure fun _ hs => hs
  | some e =>
    rw [test]
    exact (eval_triple h (he e rfl)).bind fun _ => Triple.pure fun _ hs => hs.1

mutual

theorem exec_sound (h : Ready strict c.image env calls) : ∀ {s : BoundStmt} {loop : Bool}
    {Γ Δ : Locals}, s.WellTyped c loop Γ Δ →
    Triple strict c.image (c.Holds strict Γ) (exec env calls limit s) (After strict c Γ Δ)
  | .expr e, _, _, _, hs =>
    (execExpr_sound h hs).mono (fun _ hs => hs) fun flow s hflow => by
      obtain ⟨rfl, hs⟩ := hflow
      exact hs
  | .capture e, _, _, _, ⟨⟨t, hy, he⟩, hΔ⟩ => by
    rw [exec, hΔ]
    refine polled ((eval_triple h he).bind fun v => ?_)
    refine Triple.bind (Q := fun _ => c.Holds strict _) ?_ fun _ => Triple.pure fun _ hs => hs
    rintro s ⟨hs, hv⟩
    refine ⟨⟨⟨hs.typing.store, hs.typing.slots, hs.typing.locals, hs.typing.self⟩, hs.size, ?_⟩,
      .refl _⟩
    rintro w hw
    cases hw
    exact ⟨t, hy, hv⟩
  | .block body, _, _, _, ⟨_, Θ, hb, hΔ⟩ => by
    rw [exec]
    refine polled ((execAll_sound h hb).mono (fun _ hs => hs) fun flow s hs => ?_)
    exact hs.mono (.refl _) hΔ
  | .ifElse e yes none, _, _, _, ⟨he, ⟨Θ, hy⟩, hΔ⟩ => by
    rw [exec, hΔ]
    refine polled ((eval_triple h he).bind fun v => ?_)
    split
    · refine (exec_sound h hy).mono (fun _ hs => hs.1) fun flow s hs => ?_
      exact hs.mono (.refl _) (le_of_wellTyped hy)
    · exact Triple.pure fun _ hs => hs.1
  | .ifElse e yes (some no), _, _, _, ⟨he, ⟨Θ, hy⟩, ⟨Ξ, hn⟩, hΔ⟩ => by
    rw [exec, hΔ]
    refine polled ((eval_triple h he).bind fun v => ?_)
    split
    · refine (exec_sound h hy).mono (fun _ hs => hs.1) fun flow s hs => ?_
      exact hs.mono (.refl _) (le_of_wellTyped hy)
    · refine (exec_sound h hn).mono (fun _ hs => hs.1) fun flow s hs => ?_
      exact hs.mono (.refl _) (le_of_wellTyped hn)
  | .whileDo e body, _, _, _, ⟨he, ⟨Θ, hb⟩, hΔ⟩ => by
    rw [exec, hΔ]
    refine polled (rounds_sound ?_ limit)
    refine polled ((eval_triple h he).bind fun v => ?_)
    split
    · refine Triple.bind ((exec_sound h hb).mono (fun _ hs => hs.1) fun _ _ hs => hs) fun flow => ?_
      exact Triple.pure fun _ hs => hs.leaves (le_of_wellTyped hb)
    · exact Triple.pure fun _ hs => hs.1
  | .doWhile body e, _, _, _, ⟨he, ⟨Θ, hb⟩, hΔ⟩ => by
    rw [exec, hΔ]
    refine polled (rounds_sound ?_ limit)
    refine polled ((exec_sound h hb).bind fun flow => ?_)
    split
    · next flow' hl =>
      refine Triple.pure fun _ hs => ?_
      have := hs.leaves (le_of_wellTyped hb)
      rwa [hl] at this
    · next hl =>
      refine Triple.bind ((eval_triple h he).mono (fun s hs => ?_) fun _ _ hs => hs) fun v => ?_
      · have := hs.leaves (le_of_wellTyped hb)
        rwa [hl] at this
      · split
        · exact Triple.pure fun _ hs => hs.1
        · exact Triple.pure fun _ hs => hs.1
  | .forLoop init e update body, _, _, _, ⟨Θ, hexpr, hinit, he, hu, ⟨Ξ, hb⟩, hΔ⟩ => by
    rw [exec, hΔ]
    obtain ⟨ts, hfit⟩ := fit_of_hasType hu
    have hle := le_of_allWellTyped hinit
    refine polled ((execEach_sound h hexpr hinit).bind fun _ => ?_)
    refine (rounds_sound (Γ := Θ) ?_ limit).mono (fun _ hs => hs) fun flow s hs => hs.mono hle hle
    refine polled ((test_sound h he).bind fun b => ?_)
    split
    · refine (exec_sound h hb).bind fun flow => ?_
      split
      · next flow' hl =>
        refine Triple.pure fun _ hs => ?_
        have := hs.leaves (le_of_wellTyped hb)
        rwa [hl] at this
      · next hl =>
        have hupdate : Triple strict c.image (c.Holds strict Θ) (evalAll env calls update) _ :=
          Sound.triple fun _ => evalAll_sound h hfit
        refine Triple.bind (hupdate.mono (fun s hs => ?_) fun _ _ hs => hs) fun _ => ?_
        · have := hs.leaves (le_of_wellTyped hb)
          rwa [hl] at this
        · exact Triple.pure fun _ hs => hs.1
    · exact Triple.pure fun _ hs => hs
  | .breakLoop, _, _, _, ⟨_, hΔ⟩ => by
    rw [exec, hΔ]
    exact polled (Triple.pure fun _ hs => hs)
  | .continueLoop, _, _, _, ⟨_, hΔ⟩ => by
    rw [exec, hΔ]
    exact polled (Triple.pure fun _ hs => hs)
  | .returnValue none, _, _, _, ⟨hr, hΔ⟩ => by
    rw [exec, hΔ]
    exact polled (Triple.pure fun _ hs => ⟨hs, .void, hr, .inl rfl⟩)
  | .returnValue (some e), _, _, _, ⟨⟨t, hr, _, he⟩, hΔ⟩ => by
    rw [exec, hΔ]
    refine polled ((fits_triple h he).bind fun v => ?_)
    exact Triple.pure fun _ hs => ⟨hs.1, t, hr, hs.2⟩
  | .throwValue e, _, _, _, ⟨⟨t, he⟩, hΔ⟩ => by
    rw [exec, hΔ]
    refine polled ((eval_triple h he).bind fun v => ?_)
    exact fun s hs => ⟨trivial, hs.1.typing.store, .refl _⟩

theorem execAll_sound (h : Ready strict c.image env calls) : ∀ {ss : List BoundStmt} {loop : Bool}
    {Γ Δ : Locals}, BoundStmt.AllWellTyped c loop ss Γ Δ →
    Triple strict c.image (c.Holds strict Γ) (execAll env calls limit ss) (After strict c Γ Δ)
  | [], _, _, _, hss => by
    rw [execAll, show _ = _ from hss]
    exact Triple.pure fun _ hs => hs
  | s :: rest, _, _, _, ⟨Θ, hs, hrest⟩ => by
    rw [execAll]
    refine (exec_sound h hs).bind fun flow => ?_
    have hle := le_of_allWellTyped hrest
    cases flow with
    | next =>
      refine (execAll_sound h hrest).mono (fun _ hs => hs) fun flow s hs' => ?_
      exact hs'.mono (le_of_wellTyped hs) (.refl _)
    | out | again | returned v => exact Triple.pure fun _ hs => hs

end

end Machine

end Chunkwise
