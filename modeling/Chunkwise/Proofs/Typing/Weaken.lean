import Chunkwise.Proofs.Typing.Code

namespace Chunkwise

theorem Machine.method?_grow {im im' : Image} (h : im.Grows im') {ref : MethodRef} {m : Method}
    (hm : Machine.method? im ref = some m) :
    ∃ m', Machine.method? im' ref = some m' ∧ m'.erased = m.erased := by
  cases ref with
  | helper i => exact ⟨m, hm, rfl⟩
  | member p i =>
    obtain ⟨d, hd, hi⟩ := Option.bind_eq_some_iff.mp hm
    obtain ⟨d', hd', he⟩ := h p d hd
    obtain ⟨m', hm', hem⟩ := TypeDef.method_of_erased he hi
    exact ⟨m', Option.bind_eq_some_iff.mpr ⟨d', hd', hm'⟩, hem⟩

namespace Method

variable {m m' : Method}

theorem isStatic_of_erased (h : m'.erased = m.erased) : m'.isStatic = m.isStatic := by
  simpa using congrArg Method.isStatic h

theorem returns_of_erased (h : m'.erased = m.erased) : m'.returns = m.returns := by
  simpa using congrArg Method.returns h

theorem paramTypes_of_erased (h : m'.erased = m.erased) : m'.paramTypes = m.paramTypes := by
  simpa using congrArg Method.paramTypes h

end Method

/-- What one context offers at the given slots, the other offers too. -/
structure TypingContext.Within (c c' : TypingContext) (mentioned : List Nat) : Prop where
  image : c.image.Grows c'.image
  locals : c.locals.Le c'.locals
  self : c'.self = c.self
  slots : ∀ i ∈ mentioned, ∀ t, c.slots i t → c'.slots i t

theorem TypingContext.Within.subset {c c' : TypingContext} {l l' : List Nat} (h : c.Within c' l)
    (hl : ∀ i ∈ l', i ∈ l) : c.Within c' l' :=
  ⟨h.image, h.locals, h.self, fun i hi => h.slots i (hl i hi)⟩

mutual

theorem Place.HasType.weaken {c c' : TypingContext} :
    ∀ {p : Place} {t : Ty}, c.Within c' p.slots → p.HasType c t → p.HasType c' t
  | .frame _, _, hc, h => hc.locals _ _ h
  | .static slot, t, hc, h => hc.slots slot (by simp [Place.slots]) t h
  | .field target _, _, hc, h => by
    obtain ⟨p, d, f, ht, hd, ho, hf, rfl⟩ := h
    obtain ⟨d', hd', he⟩ := hc.image p d hd
    refine ⟨p, d', f, ht.weaken hc, hd', ?_, ?_, rfl⟩
    · rwa [TypeDef.hasObjects_of_erased he]
    · rwa [TypeDef.fields_of_erased he]

theorem BoundExpr.HasType.weaken {c c' : TypingContext} :
    ∀ {e : BoundExpr} {t : Ty}, c.Within c' e.slots → e.HasType c t → e.HasType c' t
  | .const _, _, hc, h => ⟨h.1.grow h.2 hc.image fun _ _ hp => hp, hc.image.knows h.2⟩
  | .load _, _, hc, h => Place.HasType.weaken hc h
  | .thisRef, _, hc, h => by
    obtain ⟨p, hp, rfl⟩ := h
    exact ⟨p, hc.self.trans hp, rfl⟩
  | .assign _ _, _, hc, ⟨hp, s, he, hs⟩ =>
    ⟨hp.weaken (hc.subset (by simp_all [BoundExpr.slots])), s,
      he.weaken (hc.subset (by simp_all [BoundExpr.slots])), hc.image.passes hs⟩
  | .compound _ _ _, _, hc, ⟨hp, s, he, hs⟩ =>
    ⟨hp.weaken (hc.subset (by simp_all [BoundExpr.slots])), s,
      he.weaken (hc.subset (by simp_all [BoundExpr.slots])), hs⟩
  | .step _ _ _ _, _, hc, ⟨hp, hk⟩ => ⟨hp.weaken hc, hk⟩
  | .neg _ _, _, hc, ⟨he, hk⟩ => ⟨he.weaken hc, hk⟩
  | .not _, _, hc, ⟨he, ht⟩ => ⟨he.weaken hc, ht⟩
  | .binary _ _ _, _, hc, ⟨a, b, hl, hr, ho⟩ =>
    ⟨a, b, hl.weaken (hc.subset (by simp_all [BoundExpr.slots])),
      hr.weaken (hc.subset (by simp_all [BoundExpr.slots])), ho⟩
  | .both _ _, _, hc, ⟨hl, hr, ht⟩ | .either _ _, _, hc, ⟨hl, hr, ht⟩ =>
    ⟨hl.weaken (hc.subset (by simp_all [BoundExpr.slots])),
      hr.weaken (hc.subset (by simp_all [BoundExpr.slots])), ht⟩
  | .coalesce _ _, _, hc, ⟨⟨a, hl, ha⟩, b, hr, hb⟩ =>
    ⟨⟨a, hl.weaken (hc.subset (by simp_all [BoundExpr.slots])), hc.image.passes ha⟩, b,
      hr.weaken (hc.subset (by simp_all [BoundExpr.slots])), hc.image.passes hb⟩
  | .cond _ _ _, _, hc, ⟨he, ⟨a, hl, ha⟩, b, hr, hb⟩ =>
    ⟨he.weaken (hc.subset (by simp_all [BoundExpr.slots])),
      ⟨a, hl.weaken (hc.subset (by simp_all [BoundExpr.slots])), hc.image.passes ha⟩, b,
      hr.weaken (hc.subset (by simp_all [BoundExpr.slots])), hc.image.passes hb⟩
  | .callStatic _ _, _, hc, ⟨m, hm, hs, ha, ht⟩ => by
    obtain ⟨m', hm', he⟩ := Machine.method?_grow hc.image hm
    refine ⟨m', hm', (Method.isStatic_of_erased he).trans hs, ?_, ?_⟩
    · rw [Method.paramTypes_of_erased he]
      exact BoundExpr.Fit.weaken hc ha
    · rw [ht, Method.returns_of_erased he]
  | .callDirect _ _ _, _, hc, ⟨p, d, i, m, hr, he, hd, ho, hm, hs, ha, ht⟩ => by
    obtain ⟨d', hd', hed⟩ := hc.image p d hd
    obtain ⟨m', hm', hem⟩ := TypeDef.method_of_erased hed hm
    refine ⟨p, d', i, m', hr, he.weaken (hc.subset (by simp_all [BoundExpr.slots])), hd',
      (TypeDef.hasObjects_of_erased hed).trans ho, hm', (Method.isStatic_of_erased hem).trans hs,
      ?_, ?_⟩
    · rw [Method.paramTypes_of_erased hem]
      exact BoundExpr.Fit.weaken (hc.subset (by simp_all [BoundExpr.slots])) ha
    · rw [ht, Method.returns_of_erased hem]
  | .callVirtual _ _ _, _, hc, ⟨p, d, i, m, hr, he, hd, hk, hm, ha, ht⟩ => by
    obtain ⟨d', hd', hed⟩ := hc.image p d hd
    obtain ⟨m', hm', hem⟩ := TypeDef.method_of_erased hed hm
    refine ⟨p, d', i, m', hr, he.weaken (hc.subset (by simp_all [BoundExpr.slots])), hd',
      (TypeDef.kind_of_erased hed).trans hk, hm', ?_, ?_⟩
    · rw [Method.paramTypes_of_erased hem]
      exact BoundExpr.Fit.weaken (hc.subset (by simp_all [BoundExpr.slots])) ha
    · rw [ht, Method.returns_of_erased hem]
  | .new p none _, _, hc, ⟨ht, ha, d, hd, hi⟩ => by
    obtain ⟨d', hd', hed⟩ := hc.image p d hd
    exact ⟨ht, ha, d', hd', hi.of_erased hed⟩
  | .new p (some _) _, _, hc, ⟨ht, d, m, hd, hi, hm, ha⟩ => by
    obtain ⟨d', hd', hed⟩ := hc.image p d hd
    obtain ⟨m', hm', hem⟩ := TypeDef.constructor_of_erased hed hm
    refine ⟨ht, d', m', hd', hi.of_erased hed, hm', ?_⟩
    rw [Method.paramTypes_of_erased hem]
    exact BoundExpr.Fit.weaken hc ha
  | .toText _, _, hc, ⟨⟨s, he⟩, ht⟩ => ⟨⟨s, he.weaken hc⟩, ht⟩
  | .textLength _, _, hc, ⟨he, ht⟩ => ⟨he.weaken hc, ht⟩
  | .widen _, _, hc, ⟨⟨s, he, hs⟩, ht⟩ => ⟨⟨s, he.weaken hc, hs⟩, ht⟩

theorem BoundExpr.Fit.weaken {c c' : TypingContext} :
    ∀ {es : List BoundExpr} {ts : List Ty}, c.Within c' (BoundExpr.slotsOfAll es) →
      BoundExpr.Fit c es ts → BoundExpr.Fit c' es ts
  | [], [], _, _ => trivial
  | _ :: _, _ :: _, hc, ⟨⟨s, he, hs⟩, hes⟩ =>
    ⟨⟨s, he.weaken (hc.subset (by simp_all [BoundExpr.slotsOfAll])), hc.image.passes hs⟩,
      BoundExpr.Fit.weaken (hc.subset (by simp_all [BoundExpr.slotsOfAll])) hes⟩
  | [], _ :: _, _, h | _ :: _, [], _, h => h.elim

end

theorem BoundExpr.Fits.weaken {c c' : TypingContext} {e : BoundExpr} {t : Ty}
    (hc : c.Within c' e.slots) (h : e.Fits c t) : e.Fits c' t := by
  obtain ⟨s, he, hs⟩ := h
  exact ⟨s, he.weaken hc, hc.image.passes hs⟩

/-- A context of bodies that offers more at the given slots. -/
structure CodeContext.Within (c c' : CodeContext) (mentioned : List Nat) : Prop where
  image : c.image.Grows c'.image
  self : c'.self = c.self
  slots : ∀ i ∈ mentioned, ∀ t, c.slots i t → c'.slots i t
  size : c.size ≤ c'.size
  returns : c'.returns = c.returns
  yields : ∀ t, c.yields = some t → c'.yields = some t

namespace CodeContext.Within

variable {c c' : CodeContext} {l l' : List Nat}

theorem subset (h : c.Within c' l) (hl : ∀ i ∈ l', i ∈ l) : c.Within c' l' :=
  ⟨h.image, h.self, fun i hi => h.slots i (hl i hi), h.size, h.returns, h.yields⟩

theorem typing (h : c.Within c' l) (Γ : Locals) : (c.typing Γ).Within (c'.typing Γ) l :=
  ⟨h.image, .refl Γ, h.self, h.slots⟩

end CodeContext.Within

theorem BoundExpr.slots_subset_slotsOfAll {e : BoundExpr} {es : List BoundExpr} (h : e ∈ es) :
    ∀ i ∈ e.slots, i ∈ BoundExpr.slotsOfAll es := by
  induction es with
  | nil => simp at h
  | cons x es ih =>
    intro i hi
    rw [BoundExpr.slotsOfAll, List.mem_append]
    rcases List.mem_cons.mp h with rfl | h
    · exact .inl hi
    · exact .inr (ih h i hi)

mutual

theorem BoundStmt.WellTyped.weaken {c c' : CodeContext} :
    ∀ {loop : Bool} {s : BoundStmt} {Γ Δ : Locals}, c.Within c' s.slots →
      s.WellTyped c loop Γ Δ → s.WellTyped c' loop Γ Δ
  | _, .expr _, Γ, _, hc, h => by
    rcases h with ⟨⟨t, he⟩, hΔ⟩ | ⟨i, v, t, rfl, hv, hi, hΓ, hΔ⟩
    · exact .inl ⟨⟨t, he.weaken (hc.typing Γ)⟩, hΔ⟩
    · refine .inr ⟨i, v, t, rfl, hv.weaken ?_, Nat.lt_of_lt_of_le hi hc.size, hΓ, hΔ⟩
      exact (hc.subset (by simp_all [BoundStmt.slots, BoundExpr.slots])).typing Γ
  | _, .capture _, Γ, _, hc, ⟨⟨t, hy, he⟩, hΔ⟩ =>
    ⟨⟨t, hc.yields _ hy, he.weaken (hc.typing Γ)⟩, hΔ⟩
  | _, .throwValue _, Γ, _, hc, ⟨⟨t, he⟩, hΔ⟩ => ⟨⟨t, he.weaken (hc.typing Γ)⟩, hΔ⟩
  | _, .block _, _, _, hc, ⟨hle, Θ, hb, hΔ⟩ => ⟨hle, Θ, BoundStmt.AllWellTyped.weaken hc hb, hΔ⟩
  | _, .ifElse _ _ none, Γ, _, hc, ⟨he, ⟨Θ, hy⟩, hΔ⟩ =>
    ⟨he.weaken ((hc.subset (by simp_all [BoundStmt.slots])).typing Γ),
      ⟨Θ, hy.weaken (hc.subset (by simp_all [BoundStmt.slots]))⟩, hΔ⟩
  | _, .ifElse _ _ (some _), Γ, _, hc, ⟨he, ⟨Θ, hy⟩, ⟨Ξ, hn⟩, hΔ⟩ =>
    ⟨he.weaken ((hc.subset (by simp_all [BoundStmt.slots])).typing Γ),
      ⟨Θ, hy.weaken (hc.subset (by simp_all [BoundStmt.slots]))⟩,
      ⟨Ξ, hn.weaken (hc.subset (by simp_all [BoundStmt.slots]))⟩, hΔ⟩
  | _, .whileDo _ _, Γ, _, hc, ⟨he, ⟨Θ, hb⟩, hΔ⟩ | _, .doWhile _ _, Γ, _, hc, ⟨he, ⟨Θ, hb⟩, hΔ⟩ =>
    ⟨he.weaken ((hc.subset (by simp_all [BoundStmt.slots])).typing Γ),
      ⟨Θ, hb.weaken (hc.subset (by simp_all [BoundStmt.slots]))⟩, hΔ⟩
  | _, .forLoop _ _ _ _, _, _, hc, ⟨Θ, hi, hinit, he, hu, ⟨Ξ, hb⟩, hΔ⟩ => by
    refine ⟨Θ, hi, BoundStmt.AllWellTyped.weaken (hc.subset (by simp_all [BoundStmt.slots])) hinit,
      ?_, ?_, ⟨Ξ, hb.weaken (hc.subset (by simp_all [BoundStmt.slots]))⟩, hΔ⟩
    · rintro x rfl
      exact (he x rfl).weaken ((hc.subset (by simp_all [BoundStmt.slots])).typing Θ)
    · intro x hx
      obtain ⟨t, ht⟩ := hu x hx
      refine ⟨t, ht.weaken ((hc.subset fun i hi => ?_).typing Θ)⟩
      have := BoundExpr.slots_subset_slotsOfAll hx i hi
      simp [BoundStmt.slots, this]
  | _, .breakLoop, _, _, _, h | _, .continueLoop, _, _, _, h => h
  | _, .returnValue none, _, _, hc, ⟨hr, hΔ⟩ => ⟨hc.returns.trans hr, hΔ⟩
  | _, .returnValue (some _), Γ, _, hc, ⟨⟨t, hr, hv, he⟩, hΔ⟩ =>
    ⟨⟨t, hc.returns.trans hr, hv, he.weaken (hc.typing Γ)⟩, hΔ⟩

theorem BoundStmt.AllWellTyped.weaken {c c' : CodeContext} :
    ∀ {loop : Bool} {ss : List BoundStmt} {Γ Δ : Locals},
      c.Within c' (BoundStmt.slotsOfAll ss) → BoundStmt.AllWellTyped c loop ss Γ Δ →
      BoundStmt.AllWellTyped c' loop ss Γ Δ
  | _, [], _, _, _, h => h
  | _, _ :: _, _, _, hc, ⟨Θ, hs, hrest⟩ =>
    ⟨Θ, hs.weaken (hc.subset (by simp_all [BoundStmt.slotsOfAll])),
      BoundStmt.AllWellTyped.weaken (hc.subset (by simp_all [BoundStmt.slotsOfAll])) hrest⟩

end

end Chunkwise
