import Chunkwise.Proofs.Session.History
import Chunkwise.Proofs.Typing.Code

/-!
A chunk may read a variable and declare its name again. Its code then mentions the slot of the old
variable, and committing the chunk takes that slot out of use before the code has run. No other
slot in the code of a chunk is affected.
-/
namespace Chunkwise

/-- The context offers each of the given slots. Typed code mentions no static slots but those that its
context offers. -/
def Offered (slots : Nat → Ty → Prop) (mentioned : List Nat) : Prop :=
  ∀ i ∈ mentioned, ∃ t, slots i t

namespace Offered

variable {slots : Nat → Ty → Prop} {l l' : List Nat}

theorem nil : Offered slots [] := by simp [Offered]

theorem append (h : Offered slots l) (h' : Offered slots l') : Offered slots (l ++ l') :=
  fun i hi => (List.mem_append.mp hi).elim (h i) (h' i)

end Offered

mutual

theorem Place.HasType.offered {c : TypingContext} :
    ∀ {p : Place} {t : Ty}, p.HasType c t → Offered c.slots p.slots
  | .frame _, _, _ => by simp [Offered, Place.slots]
  | .static slot, t, h => by
    intro i hi
    obtain rfl := List.mem_singleton.mp hi
    exact ⟨t, h⟩
  | .field target _, _, ⟨_, _, _, ht, _⟩ => ht.offered

theorem BoundExpr.HasType.offered {c : TypingContext} :
    ∀ {e : BoundExpr} {t : Ty}, e.HasType c t → Offered c.slots e.slots
  | .const _, _, _ | .thisRef, _, _ => .nil
  | .load _, _, h => Place.HasType.offered h
  | .step _ _ _ _, _, h => h.1.offered
  | .assign _ _, _, ⟨hp, _, he, _⟩ | .compound _ _ _, _, ⟨hp, _, he, _⟩ =>
    hp.offered.append he.offered
  | .neg _ _, _, h | .not _, _, h | .textLength _, _, h => h.1.offered
  | .toText _, _, ⟨⟨_, he⟩, _⟩ => he.offered
  | .widen _, _, ⟨⟨_, he, _⟩, _⟩ => he.offered
  | .binary _ _ _, _, ⟨_, _, hl, hr, _⟩ => hl.offered.append hr.offered
  | .both _ _, _, h | .either _ _, _, h => h.1.offered.append h.2.1.offered
  | .coalesce _ _, _, ⟨⟨_, hl, _⟩, _, hr, _⟩ => hl.offered.append hr.offered
  | .cond _ _ _, _, ⟨he, ⟨_, hl, _⟩, _, hr, _⟩ =>
    (he.offered.append hl.offered).append hr.offered
  | .callStatic _ _, _, ⟨_, _, _, ha, _⟩ => BoundExpr.Fit.offered ha
  | .callDirect _ _ _, _, ⟨_, _, _, _, _, he, _, _, _, _, ha, _⟩ =>
    he.offered.append (BoundExpr.Fit.offered ha)
  | .callVirtual _ _ _, _, ⟨_, _, _, _, _, he, _, _, _, ha, _⟩ =>
    he.offered.append (BoundExpr.Fit.offered ha)
  | .new _ none _, _, ⟨_, ha, _⟩ => by
    subst ha
    exact .nil
  | .new _ (some _) _, _, ⟨_, _, _, _, _, _, ha⟩ => BoundExpr.Fit.offered ha

theorem BoundExpr.Fit.offered {c : TypingContext} :
    ∀ {es : List BoundExpr} {ts : List Ty}, BoundExpr.Fit c es ts →
      Offered c.slots (BoundExpr.slotsOfAll es)
  | [], [], _ => .nil
  | _ :: _, _ :: _, ⟨⟨_, he, _⟩, hes⟩ => he.offered.append (BoundExpr.Fit.offered hes)
  | [], _ :: _, h | _ :: _, [], h => h.elim

end

theorem BoundExpr.offered_slotsOfAll {slots : Nat → Ty → Prop} : ∀ {es : List BoundExpr},
    (∀ e ∈ es, Offered slots e.slots) → Offered slots (BoundExpr.slotsOfAll es)
  | [], _ => .nil
  | e :: _, h => (h e (by simp)).append
      (BoundExpr.offered_slotsOfAll fun x hx => h x (List.mem_cons_of_mem _ hx))

mutual

theorem BoundStmt.WellTyped.offered {c : CodeContext} :
    ∀ {loop : Bool} {s : BoundStmt} {Γ Δ : Locals}, s.WellTyped c loop Γ Δ →
      Offered c.slots s.slots
  | _, .expr _, _, _, h => by
    rcases h with ⟨⟨_, he⟩, -⟩ | ⟨_, _, _, rfl, ⟨_, hv, -⟩, -⟩
    · exact he.offered
    · exact Offered.append .nil hv.offered
  | _, .capture _, _, _, ⟨⟨_, _, he⟩, _⟩ => he.offered
  | _, .throwValue _, _, _, ⟨⟨_, he⟩, _⟩ => he.offered
  | _, .block _, _, _, ⟨_, _, hb, _⟩ => BoundStmt.AllWellTyped.offered hb
  | _, .ifElse _ _ none, _, _, ⟨he, ⟨_, hy⟩, _⟩ => he.offered.append hy.offered
  | _, .ifElse _ _ (some _), _, _, ⟨he, ⟨_, hy⟩, ⟨_, hn⟩, _⟩ =>
    (he.offered.append hy.offered).append hn.offered
  | _, .whileDo _ _, _, _, ⟨he, ⟨_, hb⟩, _⟩ => he.offered.append hb.offered
  | _, .doWhile _ _, _, _, ⟨he, ⟨_, hb⟩, _⟩ => hb.offered.append he.offered
  | _, .forLoop _ e _ _, _, _, ⟨_, _, hinit, he, hu, ⟨_, hb⟩, _⟩ => by
    refine ((Offered.append (BoundStmt.AllWellTyped.offered hinit) ?_).append ?_).append hb.offered
    · cases e with
      | none => exact .nil
      | some x => exact (he x rfl).offered
    · refine BoundExpr.offered_slotsOfAll fun x hx => ?_
      obtain ⟨_, ht⟩ := hu x hx
      exact ht.offered
  | _, .breakLoop, _, _, _ | _, .continueLoop, _, _, _ | _, .returnValue none, _, _, _ => .nil
  | _, .returnValue (some _), _, _, ⟨⟨_, _, _, _, he, _⟩, _⟩ => he.offered

theorem BoundStmt.AllWellTyped.offered {c : CodeContext} :
    ∀ {loop : Bool} {ss : List BoundStmt} {Γ Δ : Locals},
      BoundStmt.AllWellTyped c loop ss Γ Δ → Offered c.slots (BoundStmt.slotsOfAll ss)
  | _, [], _, _, _ => .nil
  | _, _ :: _, _, _, ⟨_, hs, hrest⟩ => hs.offered.append (BoundStmt.AllWellTyped.offered hrest)

end

/-- The name that stood for the slot before stands for another one now. -/
def Session.Redeclared (before after : Session) (slot : Nat) : Prop :=
  ∃ name v v', before.registry.lookup name = some v ∧ v.slot = slot ∧
    after.registry.lookup name = some v' ∧ v'.slot ≠ slot

namespace Session

variable {s : Session} {b : BindState} {code : Code}

theorem frees_iff_redeclared (hs : s.Valid) (h : b.Delivers s code) {i : Nat} :
    frees s.registry b.newVariables i = true ↔ s.Redeclared (s.commit b) i := by
  constructor
  · intro hf
    have hlt := lt_of_frees hs hf
    obtain ⟨v, hv, w, hw, hslot⟩ := frees_iff.mp hf
    refine ⟨v.name, w, ⟨v.slot, v.isReadonly⟩, hw, hslot, ?_, ?_⟩
    · exact lookup_registerAll_of_mem h.names hv
    · have hge := (h.fresh v hv).1
      exact Nat.ne_of_gt (Nat.lt_of_lt_of_le hlt hge)
  · rintro ⟨name, w, w', hw, hslot, hw', hne⟩
    rcases lookup_commit h hw' with ⟨v, hv, rfl, -⟩ | ⟨-, hold⟩
    · exact frees_iff.mpr ⟨v, hv, w, hw, hslot⟩
    · rw [hw] at hold
      cases hold
      exact absurd hslot hne

theorem offers_of_mem_slots (h : b.Delivers s code) {i : Nat} (hi : i ∈ code.slots) :
    ∃ slot, b.store.slots[i]? = some slot ∧ slot.released = false := by
  obtain ⟨y, Δ, hcode⟩ := h.code
  obtain ⟨t, slot, hslot, -, hr⟩ := BoundStmt.AllWellTyped.offered hcode i hi
  exact ⟨slot, hslot, hr rfl⟩

end Session

namespace History

variable {h : History} {src : Source} {chunkClass : ChunkClass} {mode : ParseMode}
  {u : CompiledUnit} {slot : Nat}

/-- A slot in the code of a new unit is released exactly if the chunk declares its name again. It
then holds null, and otherwise what it held before. -/
theorem Reachable.released_iff_redeclared (hr : h.Reachable)
    (hu : (h.session.compile src chunkClass mode).outcome.unit? = some u)
    (hslot : slot ∈ u.code.slots) :
    let after := (h.session.compile src chunkClass mode).session
    (after.store.isReleased slot = true ↔ h.session.Redeclared after slot) ∧
      (h.session.Redeclared after slot → after.store.readSlot slot = .null) ∧
      (¬ h.session.Redeclared after slot → slot < h.session.store.slots.size →
        after.store.readSlot slot = h.session.store.readSlot slot) := by
  rcases Session.compile_settled hr.valid.session src chunkClass mode with
    ⟨u', b, hout, hdelivers, hsession⟩ | ⟨hout, -⟩
  · obtain rfl : u' = u := by
      rw [hout] at hu
      cases hu
      rfl
    simp only [hsession]
    rw [← Session.frees_iff_redeclared hr.valid.session hdelivers]
    obtain ⟨found, hfound, hlive⟩ := Session.offers_of_mem_slots hdelivers hslot
    have hcommit := Session.commit_slot hdelivers slot
    cases hf : Session.frees h.session.registry b.newVariables slot with
    | true =>
      rw [hf, if_pos rfl, hfound] at hcommit
      simp [Store.isReleased, Store.readSlot, hcommit, Slot.freed]
    | false =>
      rw [hf, if_neg Bool.false_ne_true, hfound] at hcommit
      refine ⟨by simp [Store.isReleased, hcommit, hlive], fun h => (by cases h), fun _ hlt => ?_⟩
      rw [hdelivers.store.old slot hlt] at hfound
      simp [Store.readSlot, hcommit, hfound]
  · cases hc : (h.session.compile src chunkClass mode).outcome with
    | unit u => exact absurd hc (hout u)
    | incomplete | unreadable _ | unresolved _ =>
      rw [hc] at hu
      cases hu

/-- A session with a variable `x`. -/
def withVariable : History := blank.compile ⟨"test", "int x = 1;"⟩ .statements .silent

/-- A chunk that takes the first value of a new `x` from the old one. -/
def increment : Compiled :=
  withVariable.session.compile ⟨"test", "int x = x + 1;"⟩ .statements .silent

theorem increment_isSome : increment.outcome.unit?.isSome = true := by decide +kernel

theorem increment_lookup : 2 ∈ (increment.outcome.unit?.get increment_isSome).code.slots ∧
    withVariable.session.registry.lookup "x" = some ⟨2, false⟩ ∧
    increment.session.registry.lookup "x" = some ⟨3, false⟩ := by
  decide +kernel

/-- The code of the chunk reads slot 2, which then is out of use. -/
theorem released_iff_redeclared_increment :
    2 ∈ (increment.outcome.unit?.get increment_isSome).code.slots ∧
      increment.session.store.isReleased 2 = true ∧ increment.session.store.readSlot 2 = .null := by
  obtain ⟨hslot, hbefore, hafter⟩ := increment_lookup
  have hagain : withVariable.session.Redeclared increment.session 2 :=
    ⟨"x", ⟨2, false⟩, ⟨3, false⟩, hbefore, rfl, hafter, by decide⟩
  have hreachable : withVariable.Reachable := .compile (.start _) _ _ _
  have hspec := hreachable.released_iff_redeclared (Option.some_get increment_isSome).symm hslot
  exact ⟨hslot, hspec.1.mpr hagain, hspec.2.1 hagain⟩

end History

end Chunkwise
