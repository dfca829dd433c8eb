import Chunkwise.Proofs.Binder.Scope

namespace Chunkwise

open Attempt

/-- Typed in every frame of at least `n` slots. -/
def BoundStmt.Binds (c : CodeContext) (Γ : Locals) (loop : Bool) (n : Nat) (Δ : Locals)
    (b : BoundStmt) : Prop :=
  ∀ m, n ≤ m → b.WellTyped { c with size := m } loop Γ Δ

def BoundStmt.AllBind (c : CodeContext) (Γ : Locals) (loop : Bool) (n : Nat) (Δ : Locals)
    (bs : List BoundStmt) : Prop :=
  ∀ m, n ≤ m → BoundStmt.AllWellTyped { c with size := m } loop bs Γ Δ

/-- Expression statements are typed whether or not a loop is around. -/
theorem BoundStmt.allWellTyped_exprs {c : CodeContext} {loop : Bool} (loop' : Bool) :
    ∀ {bs : List BoundStmt} {Γ Δ : Locals}, (∀ b ∈ bs, ∃ e, b = .expr e) →
    BoundStmt.AllWellTyped c loop bs Γ Δ → BoundStmt.AllWellTyped c loop' bs Γ Δ
  | [], _, _, _, h => h
  | b :: bs, _, _, hexpr, ⟨Θ, hb, hbs⟩ => by
    obtain ⟨e, rfl⟩ := hexpr b (by simp)
    exact ⟨Θ, hb, allWellTyped_exprs loop' (fun x hx => hexpr x (List.mem_cons_of_mem _ hx)) hbs⟩

theorem BoundStmt.allWellTyped_append {c : CodeContext} {loop : Bool} {bs : List BoundStmt} {Δ : Locals} :
    ∀ {as : List BoundStmt} {Γ : Locals}, BoundStmt.AllWellTyped c loop (as ++ bs) Γ Δ ↔
      ∃ Θ, BoundStmt.AllWellTyped c loop as Γ Θ ∧ BoundStmt.AllWellTyped c loop bs Θ Δ
  | [], Γ => by simp [BoundStmt.AllWellTyped]
  | a :: as, Γ => by
    simp only [List.cons_append, BoundStmt.AllWellTyped, allWellTyped_append]
    grind

namespace Bind

variable {α : Type} {c : CodeContext} {Γ Δ : Locals}

theorem within_eq (kind : ScopeKind) (p : Bind α) (s : BindState) :
    within kind p s =
      ((p (s.withScopes (s.body.scopes.push kind))).1,
        (p (s.withScopes (s.body.scopes.push kind))).2.withScopes
          (p (s.withScopes (s.body.scopes.push kind))).2.body.scopes.pop) := rfl

theorem within_scoped {p : Bind α} {Q : Bool → Nat → Locals → α → Prop} (kind : ScopeKind)
    (h : Scoped c Γ p Q) : Scoped c Γ (within kind p) fun loop n Δ a =>
      Δ = Γ ∧ ∃ Θ, Γ.Le Θ ∧ Q (kind == .loop || loop) n Θ a := by
  intro s hs
  rw [within_eq]
  have hs₁ : (s.withScopes (s.body.scopes.push kind)).At c Γ := by
    refine ⟨hs.fits.replace rfl rfl rfl rfl rfl rfl rfl fun scope hscope x hx => ?_, hs.cache,
      hs.returns, hs.result, hs.bound⟩
    rcases List.mem_cons.mp hscope with rfl | hscope
    · cases hx
    · exact hs.fits.scopes scope hscope x hx
  -- whatever the inner binding did, leaving the scope restores the bindings around it
  have hpop : ∀ {s₂ : BindState} {Θ : Locals},
      (s.withScopes (s.body.scopes.push kind)).Moved s₂ → s₂.At c Θ →
      s.Moved (s₂.withScopes s₂.body.scopes.pop) ∧ (s₂.withScopes s₂.body.scopes.pop).At c Γ := by
    intro s₂ Θ hm hat
    obtain ⟨hall, hleads⟩ := hm.scopes.pop
    have hmoved : s.Moved (s₂.withScopes s₂.body.scopes.pop) :=
      ⟨hm.image, hm.undo, hm.registry, hm.store, hm.usings, hm.newVariables, hm.declared, hm.ctx,
        hm.thisType, hm.returns, hm.inConstructor, hleads, hm.issues⟩
    exact ⟨hmoved, hs.moved hmoved hall hat.cache⟩
  have hp := h _ hs₁
  revert hp
  rcases p (s.withScopes (s.body.scopes.push kind)) with ⟨_ | a, s₂⟩
  · exact fun ⟨hm, hat⟩ => hpop hm hat
  · rintro ⟨hm, Θ, hle, hat, ha⟩
    obtain ⟨hm', hat'⟩ := hpop hm hat
    exact ⟨hm', Γ, .refl Γ, hat', rfl, Θ, hle, ha⟩

theorem declarator_sound {s₀ : BindState} {tc : TypingContext} {A : Place → Prop} (h : s₀.Fits tc)
    (hA : s₀.Opens tc A) (decl : LocalDecl) (d : Declarator) :
    Yields s₀.Quiet (declarator decl d) fun x =>
      tc.image.Knows x.1 ∧ ∀ e, x.2 = some e → e.Fits tc x.1 ∧ e.WritesOnly A := by
  unfold declarator
  split
  · exact refuse_quiet _ _
  · split
    · split
      · exact refuse_quiet _ _
      · refine (value_sound h hA _).bind fun v hv => ?_
        split
        · exact refuse_quiet _ _
        · refine Yields.pure ⟨hv.1.1.2, fun e he => ?_⟩
          cases he
          exact ⟨hv.1.1.1.fits, hv.1.2⟩
    · refine body_quiet.bind fun b _ => ?_
      refine (resolveValueType_quiet h.usings _ _).bind fun t ht => ?_
      have hk : tc.image.Knows t := h.image ▸ ht.1
      split
      · refine (converted_sound h hA t _).bind fun e he => Yields.pure ⟨hk, fun e' he' => ?_⟩
        cases he'
        exact ⟨he.1 hk, he.2⟩
      · exact Yields.pure ⟨hk, by simp⟩

theorem declarator_ok {s₀ : BindState} {tc : TypingContext} (h : s₀.Fits tc) (decl : LocalDecl)
    (d : Declarator) : Yields s₀.Quiet (declarator decl d) fun x =>
      tc.image.Knows x.1 ∧ ∀ e, x.2 = some e → e.Fits tc x.1 :=
  (declarator_sound h (s₀.opens_all tc) decl d).mono fun _ hx => ⟨hx.1, fun e he => (hx.2 e he).1⟩

theorem defineLocal_eq (name : Ident) (t : Ty) (isReadonly : Bool) (s : BindState) :
    defineLocal name t isReadonly s =
      if s.body.scopes.definedHere name.name then refuse (.duplicateLocal name.name) name.span s
      else (some s.body.scopes.nextSlot, s.withScopes
        { s.body.scopes.insert name.name (.frame s.body.scopes.nextSlot t isReadonly) with
          nextSlot := s.body.scopes.nextSlot + 1 }) := by
  simp only [defineLocal, body, bind, Attempt.bind, Attempt.gets, Scopes.defineLocal]
  split <;> rfl

theorem nextSlot_free {s : BindState} (hs : s.At c Γ) : Γ s.body.scopes.nextSlot = none := by
  cases hΓ : Γ s.body.scopes.nextSlot with
  | none => rfl
  | some u => exact absurd (hs.bound _ u hΓ) (Nat.lt_irrefl _)

theorem addLocal_at {s : BindState} (hs : s.At c Γ) {t : Ty} (ht : c.image.Knows t) (name : String)
    (isReadonly : Bool) :
    let s' := s.withScopes
      { s.body.scopes.insert name (.frame s.body.scopes.nextSlot t isReadonly) with
        nextSlot := s.body.scopes.nextSlot + 1 }
    s.Moved s' ∧ s'.At c (Γ.set s.body.scopes.nextSlot t) := by
  have hleads := s.body.scopes.insert_leads name (.frame s.body.scopes.nextSlot t isReadonly)
  have hle : Γ.Le (Γ.set s.body.scopes.nextSlot t) := Locals.le_set (nextSlot_free hs)
  refine ⟨⟨rfl, rfl, rfl, rfl, rfl, rfl, rfl, rfl, rfl, rfl, rfl,
    ⟨hleads.outer, hleads.depth, hleads.kind, hleads.names, Nat.le_succ _⟩, id⟩, ?_, hs.cache, hs.returns,
    hs.result, fun i u hi => ?_⟩
  · refine hs.fits.replace rfl rfl rfl rfl rfl rfl rfl fun scope hscope x hx => ?_
    have hscope' : scope ∈ (s.body.scopes.insert name
        (.frame s.body.scopes.nextSlot t isReadonly)).all := hscope
    have hmem : ∀ scope ∈ s.body.scopes.all, ∀ x ∈ scope.bindings,
        x.2.Ok (c.typing (Γ.set s.body.scopes.nextSlot t)) :=
      fun scope hscope x hx => (hs.fits.scopes scope hscope x hx).le hle
    rw [Scopes.all_eq] at hmem
    rw [Scopes.insert_all] at hscope'
    rcases List.mem_cons.mp hscope' with rfl | hscope'
    · rcases List.mem_cons.mp hx with rfl | hx
      · exact ⟨by simp [CodeContext.typing, Locals.set], ht⟩
      · exact hmem _ (by simp) x hx
    · exact hmem scope (List.mem_cons_of_mem _ hscope') x hx
  · change i < s.body.scopes.nextSlot + 1
    by_cases hi' : i = s.body.scopes.nextSlot
    · omega
    · have := hs.bound i u (by simpa [Locals.set, hi'] using hi)
      omega

theorem defineLocal_scoped {t : Ty} (ht : c.image.Knows t) (name : Ident) (isReadonly : Bool) :
    Scoped c Γ (defineLocal name t isReadonly) fun _ n Δ slot =>
      Γ slot = none ∧ slot < n ∧ Δ = Γ.set slot t := by
  intro s hs
  rw [defineLocal_eq]
  by_cases hdef : s.body.scopes.definedHere name.name = true
  · rw [if_pos hdef]
    have hq : s.Quiet (refuse (α := Nat) (.duplicateLocal name.name) name.span s).2 :=
      refuse_quiet (α := Nat) (Q := fun _ => False) _ _ s (.refl hs.cache)
    exact ⟨hq.moved, hs.quiet hq⟩
  · rw [if_neg hdef]
    obtain ⟨hm, hat⟩ := addLocal_at hs ht name.name isReadonly
    exact ⟨hm, _, Locals.le_set (nextSlot_free hs), hat, nextSlot_free hs, Nat.lt_succ_self _, rfl⟩

theorem localVariable_scoped (decl : LocalDecl) (d : Declarator) :
    Scoped c Γ (localVariable decl d) fun loop n Δ b =>
      b.Binds c Γ loop n Δ ∧ ∃ e, b = .expr e := by
  unfold localVariable
  refine Scoped.bindQuiet (fun s hs => declarator_ok hs.fits decl d) fun x hx => ?_
  obtain ⟨t, init⟩ := x
  obtain ⟨hk, hinit⟩ := hx
  refine Scoped.bindQuiet (fun s hs => image_fits hs.fits) fun im him => ?_
  subst him
  have hvalue : (init.getD (.const (c.image.defaultValue t))).Fits (c.typing Γ) t := by
    cases init with
    | none => exact BoundExpr.HasType.fits ⟨Value.conforms_defaultValue _ _, hk⟩
    | some e => exact hinit e rfl
  refine Scoped.bind (defineLocal_scoped hk d.name decl.isConst) (fun slot loop n Δ _ hslot => ?_)
    fun _ => Total.pure
  refine Scoped.pure fun _ m _ hm => ⟨fun size hsize => ?_, _, rfl⟩
  refine .inr ⟨slot, _, t, rfl, hvalue, ?_, hslot.1, hslot.2.2⟩
  exact Nat.lt_of_lt_of_le hslot.2.1 (Nat.le_trans hm hsize)

/-- Statements bound one after the other; those that cannot be bound are left out. -/
theorem keepSome_scoped {P : BoundStmt → Prop} {f : α → Bind BoundStmt} {as : List α}
    (h : ∀ a ∈ as, ∀ Γ, Scoped c Γ (f a) fun loop n Δ b => b.Binds c Γ loop n Δ ∧ P b) :
    Scoped c Γ (Attempt.keepSome f as) fun loop n Δ bs =>
      BoundStmt.AllBind c Γ loop n Δ bs ∧ ∀ b ∈ bs, P b := by
  have hall : ∀ Γ, Scoped c Γ (Attempt.forAll f as) fun loop n Δ out =>
      BoundStmt.AllBind c Γ loop n Δ (out.filterMap id) ∧ ∀ b ∈ out.filterMap id, P b := by
    induction as with
    | nil => exact fun Γ => Scoped.pure fun _ _ => ⟨fun _ _ => rfl, by simp⟩
    | cons a as ih =>
      intro Γ
      unfold Attempt.forAll
      refine Scoped.bind (h a (by simp) Γ).optional (fun b? loop n Δ _ hb => ?_)
        fun _ => (Total.forAll as).bind fun _ => Total.pure
      refine Scoped.bind (ih (fun x hx => h x (List.mem_cons_of_mem _ hx)) Δ)
        (fun out loop' m Θ _ hout => ?_) fun _ => Total.pure
      refine Scoped.pure fun _ k _ hk hloop hn => ?_
      subst hloop
      cases b? with
      | none =>
        obtain rfl : Δ = Γ := hb
        exact ⟨fun size hsize => hout.1 size (Nat.le_trans hk hsize), hout.2⟩
      | some b =>
        refine ⟨fun size hsize => ⟨Δ, hb.1 size (Nat.le_trans hn hsize),
          hout.1 size (Nat.le_trans hk hsize)⟩, fun x hx => ?_⟩
        rcases List.mem_cons.mp hx with rfl | hx
        · exact hb.2
        · exact hout.2 x hx
  unfold Attempt.keepSome
  refine Scoped.bind (hall Γ) (fun out loop n Δ _ hout => ?_) fun _ => Total.pure
  exact Scoped.pure fun _ k _ hk => ⟨fun size hsize => hout.1 size (Nat.le_trans hk hsize), hout.2⟩

theorem localDecl_scoped (decl : LocalDecl) : Scoped c Γ (localDecl decl) fun loop n Δ bs =>
    BoundStmt.AllBind c Γ loop n Δ bs ∧ ∀ b ∈ bs, ∃ e, b = .expr e :=
  keepSome_scoped fun d _ _ => localVariable_scoped decl d

theorem jump_eq (b : BoundStmt) (span : Span) (s : BindState) :
    jump b span s = if s.body.scopes.inLoop then (some b, s) else refuse .jumpOutsideLoop span s := by
  simp only [jump, body, bind, Attempt.bind, Attempt.gets]
  split <;> rfl

theorem jump_scoped {b : BoundStmt} (hb : ∀ c : CodeContext, b.WellTyped c true Γ Γ) (span : Span) :
    Scoped c Γ (jump b span) fun loop n Δ b => b.Binds c Γ loop n Δ := by
  intro s hs
  rw [jump_eq]
  by_cases hloop : s.body.scopes.inLoop = true
  · rw [if_pos hloop, hloop]
    exact ⟨(BindState.Quiet.refl hs.cache).moved, Γ, .refl Γ, hs, fun _ _ => hb _⟩
  · rw [if_neg hloop]
    have hq : s.Quiet (refuse (α := BoundStmt) .jumpOutsideLoop span s).2 :=
      refuse_quiet (α := BoundStmt) (Q := fun _ => False) _ _ s (.refl hs.cache)
    exact ⟨hq.moved, hs.quiet hq⟩

theorem scoped_of_quiet {p : Bind BoundStmt} (h : ∀ s : BindState, s.At c Γ →
      Yields s.Quiet p fun b => ∀ loop m, b.WellTyped { c with size := m } loop Γ Γ) :
    Scoped c Γ p fun loop n Δ b => b.Binds c Γ loop n Δ := by
  refine (Scoped.ofQuiet h).mono fun loop n Δ b _ hb => ?_
  obtain ⟨rfl, hb⟩ := hb
  exact fun m _ => hb loop m

theorem expr_scoped (e : Expr) :
    Scoped c Γ (do return BoundStmt.expr (← expr e).expr) fun loop n Δ b =>
      b.Binds c Γ loop n Δ := by
  refine scoped_of_quiet fun s hs => ?_
  refine (expr_ok hs.fits e).bind fun v hv => Yields.pure fun _ _ => ?_
  exact .inl ⟨⟨_, hv.1⟩, rfl⟩

theorem returned_scoped (value : Option Expr) (span : Span) :
    Scoped c Γ (returned value span) fun loop n Δ b => b.Binds c Γ loop n Δ := by
  refine scoped_of_quiet fun s hs => ?_
  unfold returned
  refine body_quiet.bind fun b hb => ?_
  subst hb
  split
  · exact refuse_quiet _ _
  · next t ht =>
    have hreturns : c.returns = some t := hs.returns.trans ht
    split
    · split
      · next hvoid => exact Yields.pure fun _ _ => ⟨hvoid ▸ hreturns, rfl⟩
      · exact refuse_quiet _ _
    · split
      · exact refuse_quiet _ _
      · next hvoid =>
        refine (converted_ok hs.fits (hs.result t hreturns) _).bind fun e he => ?_
        exact Yields.pure fun _ _ => ⟨⟨t, hreturns, hvoid, he⟩, rfl⟩

theorem thrown_scoped (e : Option Expr) (span : Span) :
    Scoped c Γ (thrown e span) fun loop n Δ b => b.Binds c Γ loop n Δ := by
  refine scoped_of_quiet fun s hs => ?_
  unfold thrown
  split
  · refine (value_ok hs.fits _).bind fun v hv => ?_
    exact Yields.pure fun _ _ => ⟨⟨_, hv.1.1⟩, rfl⟩
  · exact refuse_quiet _ _

theorem skip_binds (loop : Bool) (n : Nat) : skip.Binds c Γ loop n Γ :=
  fun _ _ => ⟨.refl Γ, Γ, rfl, .refl Γ⟩

theorem condition_scoped (e : Expr) : Scoped c Γ (condition e) fun _ _ Δ x =>
    Δ = Γ ∧ x.HasType (c.typing Γ) .bool :=
  Scoped.ofQuiet fun _ hs => condition_ok hs.fits e

theorem forInit_scoped (init : ForInit) : Scoped c Γ (forInit init) fun loop n Δ bs =>
    BoundStmt.AllBind c Γ loop n Δ bs ∧ ∀ b ∈ bs, ∃ e, b = .expr e := by
  unfold forInit
  split
  · exact Scoped.pure fun _ _ => ⟨fun _ _ => rfl, by simp⟩
  · exact localDecl_scoped _
  · refine keepSome_scoped fun e _ Γ => ?_
    refine Scoped.bindQuiet (fun s hs => expr_ok hs.fits e) fun v hv => ?_
    exact Scoped.pure fun _ _ => ⟨fun _ _ => .inl ⟨⟨_, hv.1⟩, rfl⟩, _, rfl⟩

theorem optionalCondition_scoped (e : Option Expr) :
    Scoped c Γ (optionalCondition e) fun _ _ Δ x? =>
      Δ = Γ ∧ ∀ x, x? = some x → x.HasType (c.typing Γ) .bool := by
  cases e with
  | none => exact Scoped.pure fun _ _ => ⟨rfl, by simp⟩
  | some e =>
    refine Scoped.ofQuiet fun s hs => ?_
    exact (condition_ok hs.fits e).optional

theorem optionalCondition_total (e : Option Expr) : Total (optionalCondition e) := by
  cases e with
  | none => exact Total.pure
  | some e => exact Total.optional

theorem stmts_total (xs : List Stmt) : Total (stmts xs) := by
  induction xs with
  | nil => exact Total.pure
  | cons x xs ih =>
    unfold stmts
    exact Total.optional.bind fun _ => ih.bind fun _ => Total.pure

/-- A branch in a scope of its own; one that cannot be bound does nothing. -/
theorem branch_scoped {p : Bind BoundStmt} (kind : ScopeKind)
    (h : Scoped c Γ p fun loop n Δ b => b.Binds c Γ loop n Δ) :
    Scoped c Γ (Attempt.optional (within kind p)) fun loop n Δ b? => Δ = Γ ∧
      (∀ b, b? = some b → ∃ Θ, b.Binds c Γ (kind == .loop || loop) n Θ) ∧
      ∃ Θ, (b?.getD skip).Binds c Γ (kind == .loop || loop) n Θ := by
  refine (within_scoped kind h).optional.mono fun loop n Δ b? _ hb => ?_
  cases b? with
  | none => exact ⟨hb, by simp, Γ, skip_binds _ _⟩
  | some b =>
    obtain ⟨rfl, Θ, -, hb⟩ := hb
    refine ⟨rfl, fun b' hb' => ?_, Θ, hb⟩
    cases hb'
    exact ⟨Θ, hb⟩

theorem optionalTest_scoped (e : Expr) :
    Scoped c Γ (Attempt.optional (condition e)) fun _ _ Δ x? =>
      Δ = Γ ∧ ∀ x, x? = some x → x.HasType (c.typing Γ) .bool :=
  Scoped.ofQuiet fun _ hs => (condition_ok hs.fits e).optional

theorem ofOption_scoped {a? : Option α} {P : α → Prop} (h : ∀ a, a? = some a → P a) :
    Scoped c Γ (Attempt.ofOption a?) fun _ _ Δ a => Δ = Γ ∧ P a :=
  Scoped.ofQuiet fun _ _ => Yields.ofOption h

/-- A loop with a header. Its locals end with it, and whether another loop is around it does not
matter. -/
theorem forBody_scoped {p : Bind BoundStmt} (init : ForInit) (test : Option Expr)
    (update : List Expr)
    (h : ∀ Γ, Scoped c Γ p fun loop n Δ b => b.Binds c Γ loop n Δ) :
    Scoped c Γ (do
      let init ← forInit init
      let test ← optionalCondition test
      let update ← Attempt.keepSome (fun e => do return (← expr e).expr) update
      let body? ← Attempt.optional (within .block p)
      return BoundStmt.forLoop init test update (body?.getD skip)) fun inLoop n _ b =>
        inLoop = true → ∀ loop, b.Binds c Γ loop n Γ := by
  refine Scoped.bind (forInit_scoped init) (fun is loop n Θ _ hinit => ?_) fun _ =>
    (optionalCondition_total test).bind fun _ => (Total.keepSome update).bind fun _ =>
      Total.optional.bind fun _ => Total.pure
  refine Scoped.bindSame (optionalCondition_scoped test) fun e? _ _ htest => ?_
  refine Scoped.bindQuiet (P := fun us => ∀ u ∈ us, ∃ t, u.HasType (c.typing Θ) t)
    (fun s hs => Yields.keepSome fun e _ =>
      (expr_ok hs.fits e).bind fun v hv => Yields.pure ⟨v.type, hv.1⟩) fun us hus => ?_
  refine Scoped.bindSame (branch_scoped .block (h Θ)) fun body? _ m hbody => ?_
  refine Scoped.pure fun _ k h₁ h₂ h₃ h₄ h₅ h₆ hloop loop' size hsize => ?_
  subst h₁ h₃ h₅ hloop
  obtain ⟨-, Ξ, hbody⟩ := hbody
  exact ⟨Θ, hinit.2, BoundStmt.allWellTyped_exprs false hinit.2 (hinit.1 size (by omega)), htest,
    hus, ⟨Ξ, hbody size (by omega)⟩, rfl⟩

mutual

theorem stmt_scoped : ∀ (x : Stmt) (Γ : Locals),
    Scoped c Γ (stmt x) fun loop n Δ b => b.Binds c Γ loop n Δ
  | .empty _, _ => Scoped.fail
  | .block _ body, Γ => by
    unfold stmt
    refine Scoped.bindSame ((within_scoped .block (stmts_scoped body Γ)).mono
      fun _ _ _ _ _ h => h) fun bs loop n hbs => ?_
    obtain ⟨Θ, hle, hbs⟩ := hbs
    refine Scoped.pure fun _ k hloop hk size hsize => ⟨.refl Γ, Θ, ?_, hle⟩
    exact hbs size (Nat.le_trans hk hsize)
  | .declare _ decl, Γ => by
    unfold stmt
    refine Scoped.bind (localDecl_scoped decl) (fun bs loop n Δ hle hbs => ?_)
      fun _ => Total.pure
    refine Scoped.pure fun _ k _ hk size hsize => ⟨hle, Δ, ?_, .refl Δ⟩
    exact hbs.1 size (Nat.le_trans hk hsize)
  | .expr _ e, Γ => by
    unfold stmt
    exact expr_scoped e
  | .ifElse _ test yes none, Γ => by
    unfold stmt
    refine Scoped.bindSame (optionalTest_scoped test) fun c? loop _ htest => ?_
    refine Scoped.bindSame (branch_scoped .block (stmt_scoped yes Γ)) fun yes? _ n hyes => ?_
    refine Scoped.bindSame (ofOption_scoped htest) fun e _ _ he => ?_
    refine Scoped.pure fun _ k h₁ h₂ h₃ h₄ h₅ h₆ size hsize => ?_
    subst h₁ h₃ h₅
    obtain ⟨-, Θ, hyes⟩ := hyes
    exact ⟨he, ⟨Θ, hyes size (by omega)⟩, rfl⟩
  | .ifElse _ test yes (some no), Γ => by
    unfold stmt
    refine Scoped.bindSame (optionalTest_scoped test) fun c? loop _ htest => ?_
    refine Scoped.bindSame (branch_scoped .block (stmt_scoped yes Γ)) fun yes? _ n hyes => ?_
    refine Scoped.bindSame (branch_scoped .block (stmt_scoped no Γ)) fun no? _ n' hno => ?_
    refine Scoped.bindSame (ofOption_scoped htest) fun e _ _ he => ?_
    refine Scoped.pure fun _ k h₁ h₂ h₃ h₄ h₅ h₆ h₇ h₈ size hsize => ?_
    subst h₁ h₃ h₅ h₇
    obtain ⟨-, Θ, hyes⟩ := hyes
    cases no? with
    | none => exact ⟨he, ⟨Θ, hyes size (by omega)⟩, rfl⟩
    | some no =>
      obtain ⟨Ξ, hno⟩ := hno.1 no rfl
      exact ⟨he, ⟨Θ, hyes size (by omega)⟩, ⟨Ξ, hno size (by omega)⟩, rfl⟩
  | .whileDo _ test body, Γ => by
    unfold stmt
    refine Scoped.bindSame (optionalTest_scoped test) fun c? loop _ htest => ?_
    refine Scoped.bindSame (branch_scoped .loop (stmt_scoped body Γ)) fun body? _ n hbody => ?_
    refine Scoped.bindSame (ofOption_scoped htest) fun e _ _ he => ?_
    refine Scoped.pure fun _ k h₁ h₂ h₃ h₄ h₅ h₆ size hsize => ?_
    obtain ⟨-, Θ, hbody⟩ := hbody
    exact ⟨he, ⟨Θ, hbody size (by omega)⟩, rfl⟩
  | .doWhile _ body test, Γ => by
    unfold stmt
    refine Scoped.bindSame (branch_scoped .loop (stmt_scoped body Γ)) fun body? _ n hbody => ?_
    refine Scoped.bindSame (condition_scoped test) fun e _ _ he => ?_
    refine Scoped.pure fun _ k h₁ h₂ h₃ h₄ size hsize => ?_
    obtain ⟨-, Θ, hbody⟩ := hbody
    exact ⟨he, ⟨Θ, hbody size (by omega)⟩, rfl⟩
  | .forLoop _ init test update body, Γ => by
    unfold stmt
    refine (within_scoped .loop (forBody_scoped init test update (stmt_scoped body))).mono
      fun loop n Δ b _ h => ?_
    obtain ⟨rfl, -, -, h⟩ := h
    exact h rfl loop
  | .breakLoop span, Γ => by
    unfold stmt
    exact jump_scoped (fun _ => by simp [BoundStmt.WellTyped]) span
  | .continueLoop span, Γ => by
    unfold stmt
    exact jump_scoped (fun _ => by simp [BoundStmt.WellTyped]) span
  | .returnValue span e, Γ => by
    unfold stmt
    exact returned_scoped e span
  | .throwValue span e, Γ => by
    unfold stmt
    exact thrown_scoped e span

theorem stmts_scoped : ∀ (xs : List Stmt) (Γ : Locals),
    Scoped c Γ (stmts xs) fun loop n Δ bs => BoundStmt.AllBind c Γ loop n Δ bs
  | [], _ => Scoped.pure fun _ _ _ _ => rfl
  | x :: xs, Γ => by
    unfold stmts
    refine Scoped.bind (stmt_scoped x Γ).optional (fun b? loop n Δ _ hb => ?_)
      fun _ => (stmts_total xs).bind fun _ => Total.pure
    refine Scoped.bind (stmts_scoped xs Δ) (fun bs loop' m Θ _ hbs => ?_) fun _ => Total.pure
    refine Scoped.pure fun _ k _ hk hloop hn size hsize => ?_
    subst hloop
    cases b? with
    | none =>
      obtain rfl : Δ = Γ := hb
      exact hbs size (Nat.le_trans hk hsize)
    | some b =>
      exact ⟨Δ, hb size (Nat.le_trans hn hsize), hbs size (Nat.le_trans hk hsize)⟩

end

end Bind

end Chunkwise
