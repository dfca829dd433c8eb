import Chunkwise.Proofs.Binder.Host
import Chunkwise.Proofs.Split.Twin

/-!
A top-level statement may declare variables, on both sides the same ones. The two sides part only
where the whole chunk reports a variable that its earlier statements have declared already, and then
the whole chunk fails. So `Follows` is a contract for a whole chunk without problems.
-/
namespace Chunkwise

open Attempt

namespace Bind

variable {α β γ δ : Type} {g : Seam} {vs : List NewVariable} {old : Session} {s t : BindState}
  {Γ : Locals}

/-- Unless the whole chunk has a problem, both sides give the same up to `f`, and at the top again. -/
def Follows (g : Seam) (f : β → α) (r : Option α × BindState) (r' : Option β × BindState) : Prop :=
  r.2.issues.hasAny = true ∨
    r.1 = r'.1.map f ∧ (∃ vs, r.2.Twin g vs r'.2) ∧ r'.2.body.scopes.inner = []

theorem eq_map_of_rel {f : β → α} {a? : Option α} {b? : Option β}
    (h : Option.Rel (fun a b => a = f b) a? b?) : a? = b?.map f := by
  cases h with
  | none => rfl
  | some hab => exact congrArg some hab

namespace Follows

variable {f : β → α} {h : δ → γ} {p : Bind α} {q : Bind β}

theorem ofParallel (hp : Parallel (BindState.TwinAt g vs 0) (fun a b => a = f b) p q)
    (ht : s.Twin g vs t) (htop : t.body.scopes.inner = []) : Follows g f (p s) (q t) := by
  obtain ⟨hval, htwin, hlen⟩ := hp s t ⟨ht, congrArg List.length htop⟩
  exact .inr ⟨eq_map_of_rel hval, ⟨vs, htwin⟩, List.length_eq_zero_iff.mp hlen⟩

theorem pure {a : α} {b : β} (hab : a = f b) (ht : s.Twin g vs t)
    (htop : t.body.scopes.inner = []) : Follows g f ((Pure.pure a : Bind α) s) ((Pure.pure b : Bind β) t) :=
  ofParallel (.pure hab) ht htop

/-- First bind, then go on in the state reached; a problem of the whole chunk does not go away. -/
theorem bind {Q : BindState → Locals → α → Prop} {F : α → Bind γ} {F' : β → Bind δ}
    (hp : Follows g f (p s) (q t)) (hosts : Hosts old Γ s (p s) Q)
    (hgrow : ∀ a s' Δ, s'.Hosted old → s'.At (hostContext s') Δ → s'.issues.hasAny = true →
      (F a s').2.issues.hasAny = true)
    (hF : ∀ b s' t' vs' Δ, s'.Hosted old → s'.At (hostContext s') Δ → s'.Twin g vs' t' →
      t'.body.scopes.inner = [] → Follows g h (F (f b) s') (F' b t')) :
    Follows g h ((p >>= F) s) ((q >>= F') t) := by
  change Follows g h (Attempt.bind p F s) (Attempt.bind q F' t)
  unfold Attempt.bind
  rcases hps : p s with ⟨a?, s'⟩
  rcases hqt : q t with ⟨b?, t'⟩
  rw [hps] at hp hosts
  rw [hqt] at hp
  obtain ⟨hhosted, -, hat⟩ := hosts
  rcases hp with hbroken | ⟨hval, ⟨vs', htwin⟩, htop⟩
  · left
    cases a? with
    | none => exact hbroken
    | some a =>
      obtain ⟨Δ, -, hat, -⟩ := hat
      exact hgrow a s' Δ hhosted hat hbroken
  · cases b? with
    | none =>
      subst hval
      exact .inr ⟨rfl, ⟨vs', htwin⟩, htop⟩
    | some b =>
      subst hval
      obtain ⟨Δ, -, hat, -⟩ := hat
      exact hF b s' t' vs' Δ hhosted hat htwin htop

theorem bindQuiet {P : α → Prop} {F : α → Bind γ} {F' : β → Bind δ} (hs : s.Hosted old)
    (hat : s.At (hostContext s) Γ) (ht : s.Twin g vs t) (htop : t.body.scopes.inner = [])
    (hp : Parallel (BindState.TwinAt g vs 0) (fun a b => a = f b) p q) (hquiet : Yields s.Quiet p P)
    (hF : ∀ b s' t', s.Quiet s' → s'.Hosted old → s'.At (hostContext s') Γ → s'.Twin g vs t' →
      t'.body.scopes.inner = [] → P (f b) → Follows g h (F (f b) s') (F' b t')) :
    Follows g h ((p >>= F) s) ((q >>= F') t) := by
  obtain ⟨hval, htwin, hlen⟩ := hp s t ⟨ht, congrArg List.length htop⟩
  replace hval := eq_map_of_rel hval
  have hrun := hquiet s (.refl hat.cache)
  change Follows g h (Attempt.bind p F s) (Attempt.bind q F' t)
  unfold Attempt.bind
  rcases hps : p s with ⟨a?, s'⟩
  rcases hqt : q t with ⟨b?, t'⟩
  simp only [hps, hqt] at hval htwin hlen hrun
  have htop' := List.length_eq_zero_iff.mp hlen
  cases b? with
  | none =>
    subst hval
    exact .inr ⟨rfl, ⟨vs, htwin⟩, htop'⟩
  | some b =>
    subst hval
    obtain ⟨hq, hP⟩ := hrun
    exact hF b s' t' hq (hs.moved hq.moved) (Hosts.hostContext_moved hq.moved ▸ hat.quiet hq) htwin
      htop' hP

theorem ite {c : Prop} [Decidable c] {p' : Bind α} {q' : Bind β}
    (hp : c → Follows g f (p s) (q t)) (hp' : ¬ c → Follows g f (p' s) (q' t)) :
    Follows g f ((if c then p else p') s) ((if c then q else q') t) := by
  split
  · next hc => exact hp hc
  · next hc => exact hp' hc

theorem optional (hp : Follows g f (p s) (q t)) :
    Follows g (Option.map f) (Attempt.optional p s) (Attempt.optional q t) := by
  rcases hp with hbroken | ⟨hval, htwin, htop⟩
  · exact .inl hbroken
  · exact .inr ⟨congrArg some hval, htwin, htop⟩

/-- What a whole chunk without problems gives, the other side gives too. -/
theorem result {a : α} {r : Option β × BindState} (hr : Follows g f (some a, s) r)
    (hclean : s.issues.hasAny = false) :
    ∃ b t vs, r = (some b, t) ∧ a = f b ∧ s.Twin g vs t ∧ t.body.scopes.inner = [] := by
  obtain ⟨b?, t⟩ := r
  rcases hr with hbroken | ⟨hval, ⟨vs, htwin⟩, htop⟩
  · rw [hclean] at hbroken
    cases hbroken
  · obtain ⟨b, hb, hab⟩ := Option.map_eq_some_iff.mp hval.symm
    subst hb
    exact ⟨b, t, vs, rfl, hab.symm, htwin, htop⟩

end Follows

theorem withVariables_size (st : Store) (im : Image) :
    (st.withVariables im vs).slots.size = st.slots.size + vs.length := by
  simp [Store.withVariables]

theorem definedHere_rest (ht : s.Twin g vs t) (htop : t.body.scopes.inner = []) {name : String}
    (hnew : s.body.scopes.definedHere name = false) : t.body.scopes.definedHere name = false := by
  rw [ht.body.1] at hnew
  simp only [BodyContext.hostWith, Scopes.definedHere_behind_top htop, Bool.or_eq_false_iff] at hnew
  exact hnew.1

theorem nextVariable_slot (ht : s.Twin g vs t) :
    s.store.slots.size = g.rest.slots.size + vs.length ∧
      t.store.slots.size = g.rest.slots.size + vs.length := by
  rw [ht.store.1, ht.store.2, withVariables_size, withVariables_size, g.size]
  exact ⟨rfl, rfl⟩

theorem withVariable_twin (ht : s.Twin g vs t) (htop : t.body.scopes.inner = []) (name : String)
    (type : Ty) (isReadonly : Bool) : (withVariable s name type isReadonly).Twin g
      (vs ++ [⟨name, type, isReadonly⟩]) (withVariable t name type isReadonly) := by
  obtain ⟨hslot, hslot'⟩ := nextVariable_slot ht
  let x : Binding := .variable (g.rest.slots.size + vs.length) type isReadonly
  have hs : withVariable s name type isReadonly = { s with
      store := g.whole.withVariables t.image (vs ++ [⟨name, type, isReadonly⟩])
      body := .hostWith ((t.body.scopes.insert name x).behind g.shift g.bindings)
      newVariables := s.newVariables ++ [⟨name, g.rest.slots.size + vs.length, isReadonly⟩] } := by
    unfold withVariable
    rw [hslot, ht.image, ht.store.1, Store.withVariables_addSlot g.whole t.image vs ⟨name, type, isReadonly⟩,
      ← Scopes.insert_behind, ht.body.1]
    rfl
  have hrest : withVariable t name type isReadonly = { t with
      store := g.rest.withVariables t.image (vs ++ [⟨name, type, isReadonly⟩])
      body := .hostWith (t.body.scopes.insert name x)
      newVariables := t.newVariables ++ [⟨name, g.rest.slots.size + vs.length, isReadonly⟩] } := by
    unfold withVariable
    rw [hslot', ht.store.2, Store.withVariables_addSlot g.rest t.image vs ⟨name, type, isReadonly⟩,
      ht.body.2]
    rfl
  rw [hs, hrest]
  refine ⟨ht.image, ht.usings, ht.issues, ht.names, ⟨rfl, rfl⟩, ⟨?_, ?_⟩, ⟨rfl, rfl⟩, ?_, ht.cache⟩
  · simp only [ht.added.1, NewVariable.pendings_concat, List.append_assoc]
  · simp only [ht.added.2, NewVariable.pendings_concat]
  · simp only [BodyContext.hostWith, Scopes.insert, htop, ht.root, NewVariable.bindings_concat, x]

theorem addVariable_follows (ht : s.Twin g vs t) (htop : t.body.scopes.inner = []) {name : String}
    (hnew : s.body.scopes.definedHere name = false) (type : Ty) (isReadonly : Bool) :
    Follows g id (addVariable name type isReadonly s) (addVariable name type isReadonly t) := by
  obtain ⟨hslot, hslot'⟩ := nextVariable_slot ht
  rw [addVariable_eq hnew, addVariable_eq (definedHere_rest ht htop hnew), hslot, hslot']
  refine .inr ⟨rfl, ⟨_, withVariable_twin ht htop name type isReadonly⟩, ?_⟩
  simp [withVariable, Scopes.insert, htop]

theorem isUnbound_twins (name : String) :
    Parallel (BindState.TwinAt g vs 0) Eq (isUnbound name) (isUnbound name) := by
  unfold isUnbound
  refine Parallel.bind (A := Eq) (.gets fun s t h => ?_) ?_
  · have hknown := g.known name
    simp only [h.1.scopes, Scopes.lookup_behind, h.1.names.1, h.1.names.2, ← hknown, Option.isSome_or,
      Option.isSome_map, Bool.or_assoc]
  · rintro known _ rfl
    refine .ite Iff.rfl (.pure rfl) ((body_parallel (g.accord vs)).bind fun b b' hb => ?_)
    rw [← hb.1.ctx, hb.2]
    refine (lookupEntity_parallel 0 name).bind ?_
    rintro e? _ rfl
    exact .pure rfl

theorem implicitVariable_follows (hold : old.Valid) (h : s.Hosted old)
    (hat : s.At (hostContext s) Γ) (ht : s.Twin g vs t) (htop : t.body.scopes.inner = [])
    {name : String} (hnew : s.body.scopes.definedHere name = false) (e : Expr) :
    Follows g (BoundStmt.lift g.shift g.keeps) (implicitVariable name e s)
      (implicitVariable name e t) := by
  unfold implicitVariable
  refine .bindQuiet h hat ht htop (value_twins e) (value_ok hat.fits e)
    fun v s₁ t₁ hq h₁ hat₁ ht₁ htop₁ hv => ?_
  refine .ite (fun _ => .ofParallel (refuse_twins _ _) ht₁ htop₁) fun _ => ?_
  have hk : s₁.image.Knows v.type := by
    rw [hq.image]
    exact hv.1.2
  have hnew₁ : s₁.body.scopes.definedHere name = false := hq.body ▸ hnew
  refine (addVariable_follows ht₁ htop₁ hnew₁ v.type false).bind
    (addVariable_hosts hold h₁ hat₁ hk hnew₁ false) (fun _ _ _ _ _ hi => hi) ?_
  exact fun slot s₂ t₂ _ _ _ _ ht₂ htop₂ => .pure rfl ht₂ htop₂

theorem hostVariable_follows (hold : old.Valid) (h : s.Hosted old) (hat : s.At (hostContext s) Γ)
    (ht : s.Twin g vs t) (htop : t.body.scopes.inner = []) (decl : LocalDecl) (d : Declarator) :
    Follows g (Option.map (BoundStmt.lift g.shift g.keeps)) (hostVariable decl d s)
      (hostVariable decl d t) := by
  change Follows g _ ((if s.body.scopes.definedHere d.name.name then _ else _ : Bind _) s)
    ((if t.body.scopes.definedHere d.name.name then _ else _ : Bind _) t)
  by_cases hdef : s.body.scopes.definedHere d.name.name = true
  · rw [if_pos hdef]
    exact .inl (hasAny_push _ _)
  · have hnew : s.body.scopes.definedHere d.name.name = false := by simpa using hdef
    rw [if_neg hdef, if_neg (by simp [definedHere_rest ht htop hnew])]
    refine .bindQuiet h hat ht htop (declarator_twins decl d) (declarator_ok hat.fits decl d)
      fun x s₁ t₁ hq h₁ hat₁ ht₁ htop₁ hx => ?_
    obtain ⟨type, init⟩ := x
    have hk : s₁.image.Knows type := by
      rw [hq.image]
      exact hx.1
    have hnew₁ : s₁.body.scopes.definedHere d.name.name = false := hq.body ▸ hnew
    refine (addVariable_follows ht₁ htop₁ hnew₁ type decl.isConst).bind
      (addVariable_hosts hold h₁ hat₁ hk hnew₁ decl.isConst) (fun _ _ _ _ _ hi => hi) ?_
    refine fun slot s₂ t₂ _ _ _ _ ht₂ htop₂ => .pure ?_ ht₂ htop₂
    cases init <;> rfl

theorem eachVariable_follows (hold : old.Valid) (decl : LocalDecl) : ∀ (ds : List Declarator)
    {s t : BindState} {vs : List NewVariable} {Γ : Locals}, s.Hosted old → s.At (hostContext s) Γ →
    s.Twin g vs t → t.body.scopes.inner = [] →
    Follows g (List.map (Option.map (Option.map (BoundStmt.lift g.shift g.keeps))))
      (Attempt.forAll (hostVariable decl) ds s) (Attempt.forAll (hostVariable decl) ds t)
  | [], _, _, _, _, _, _, ht, htop => .pure rfl ht htop
  | d :: ds, _, _, _, _, h, hat, ht, htop => by
    unfold Attempt.forAll
    refine (hostVariable_follows hold h hat ht htop decl d).optional.bind
      (hostVariable_hosts hold h hat decl d).optional (fun b? s₁ Δ h₁ hat₁ hi => ?_)
      fun b? s₁ t₁ _ Δ h₁ hat₁ ht₁ htop₁ => ?_
    · have hgrow : Hosts old Δ s₁ _ fun _ _ _ => True :=
        Hosts.bind (eachVariable_hosts hold decl ds h₁ hat₁)
          (fun bs s₂ Θ _ h₂ _ hat₂ _ => Hosts.pure (a := b? :: bs) h₂ hat₂ fun _ => trivial)
          fun _ => Total.pure
      exact hgrow.2.1.issues hi
    · refine (eachVariable_follows hold decl ds h₁ hat₁ ht₁ htop₁).bind
        (eachVariable_hosts hold decl ds h₁ hat₁) (fun _ _ _ _ _ hi => hi) ?_
      exact fun bs s₂ t₂ _ _ _ _ ht₂ htop₂ => .pure rfl ht₂ htop₂

theorem hostVariables_follows (hold : old.Valid) (h : s.Hosted old) (hat : s.At (hostContext s) Γ)
    (ht : s.Twin g vs t) (htop : t.body.scopes.inner = []) (decl : LocalDecl) :
    Follows g (List.map (BoundStmt.lift g.shift g.keeps)) (hostVariables decl s)
      (hostVariables decl t) := by
  have heach := eachVariable_follows hold decl decl.declarators h hat ht htop
  have hhosts := eachVariable_hosts hold decl decl.declarators h hat
  have hrun : ∀ s : BindState, hostVariables decl s = (do
      let out ← Attempt.forAll (hostVariable decl) decl.declarators
      return (out.filterMap id).filterMap id : Bind (List BoundStmt)) s := by
    intro s
    simp only [hostVariables, Attempt.keepSome, Bind.bind, Attempt.bind]
    rcases Attempt.forAll (hostVariable decl) decl.declarators s with ⟨_ | out, s'⟩ <;> rfl
  rw [hrun s, hrun t]
  refine heach.bind hhosts (fun _ _ _ _ _ hi => hi) fun out s₁ t₁ _ _ _ _ ht₁ htop₁ => ?_
  refine .pure ?_ ht₁ htop₁
  rw [filterMap_id_map, filterMap_id_map]

/-- A result of the chunk of its own is one of the whole chunk only if the seam says so. -/
theorem hostExpr_twins {isLast isLast' : Bool} (hlast : isLast = (isLast' && g.keeps)) (e : Expr) :
    Parallel (BindState.TwinAt g vs 0) (fun b b' => b = b'.lift g.shift g.keeps) (hostExpr isLast e)
      (hostExpr isLast' e) := by
  subst hlast
  unfold hostExpr
  refine (expr_twins e).bind ?_
  rintro _ v rfl
  have hboth : (isLast' && g.keeps && yieldsResult e && v.type != .void) =
      ((isLast' && yieldsResult e && v.type != .void) && g.keeps) := by
    cases g.keeps <;> simp
  rw [Typed.lift_type, hboth]
  cases isLast' && yieldsResult e && v.type != .void with
  | false => exact .pure rfl
  | true =>
    cases hkeeps : g.keeps with
    | false => exact .pure (by simp [BoundStmt.lift, Typed.lift])
    | true => exact .pure (by simp [BoundStmt.lift, Typed.lift])

theorem hostExprStmt_follows (hold : old.Valid) (h : s.Hosted old) (hat : s.At (hostContext s) Γ)
    (ht : s.Twin g vs t) (htop : t.body.scopes.inner = []) {isLast isLast' : Bool}
    (hlast : isLast = (isLast' && g.keeps)) (e : Expr) :
    Follows g (BoundStmt.lift g.shift g.keeps) (hostExprStmt isLast e s)
      (hostExprStmt isLast' e t) := by
  unfold hostExprStmt
  rcases implicitTarget? e with _ | ⟨name, value⟩
  · exact .ofParallel (hostExpr_twins hlast e) ht htop
  · refine .bindQuiet h hat ht htop (isUnbound_twins name) (isUnbound_quiet hat.fits.usings name)
      fun unbound s₁ t₁ hq h₁ hat₁ ht₁ htop₁ hunbound => ?_
    refine .ite (fun htrue => ?_) fun _ => .ofParallel (hostExpr_twins hlast e) ht₁ htop₁
    exact implicitVariable_follows hold h₁ hat₁ ht₁ htop₁ (hq.body ▸ hunbound htrue) value

theorem toList_map {f : β → α} (b? : Option β) : (b?.map f).toList = b?.toList.map f := by
  cases b? <;> rfl

theorem hostStmt_follows (hold : old.Valid) (h : s.Hosted old) (hat : s.At (hostContext s) Γ)
    (ht : s.Twin g vs t) (htop : t.body.scopes.inner = []) {isLast isLast' : Bool}
    (hlast : isLast = (isLast' && g.keeps)) (x : Stmt) :
    Follows g (List.map (BoundStmt.lift g.shift g.keeps)) (hostStmt isLast x s)
      (hostStmt isLast' x t) := by
  have hstmt : (∀ span decl, x ≠ .declare span decl) →
      Follows g (List.map (BoundStmt.lift g.shift g.keeps))
        ((do return (← Attempt.optional (stmt x)).toList : Bind (List BoundStmt)) s)
        ((do return (← Attempt.optional (stmt x)).toList : Bind (List BoundStmt)) t) := fun hx => by
    have htwins : Parallel (BindState.TwinAt g vs 0) (fun b b' => b = b'.lift g.shift g.keeps) (stmt x)
        (stmt x) := stmt_twins x fun span decl heq => absurd heq (hx span decl)
    refine .ofParallel (htwins.optional.bind fun b? b'? hb => .pure ?_) ht htop
    rw [eq_map_of_rel hb, toList_map]
  cases x with
  | declare _ decl => exact hostVariables_follows hold h hat ht htop decl
  | expr _ e =>
    refine (hostExprStmt_follows hold h hat ht htop hlast e).optional.bind
      (hostExprStmt_hosts hold h hat isLast e).optional (fun _ _ _ _ _ hi => hi) ?_
    exact fun b? s₁ t₁ _ _ _ _ ht₁ htop₁ => .pure (toList_map b?) ht₁ htop₁
  | _ => exact hstmt fun _ _ heq => by cases heq

/-- The statements of a part of a chunk, which is the last one or not. -/
def hostPart (isLast : Bool) : List Stmt → Bind (List BoundStmt)
  | [] => return []
  | x :: rest => do
    let bound ← hostStmt (rest.isEmpty && isLast) x
    let more ← hostPart isLast rest
    return bound ++ more

theorem hostPart_last (xs : List Stmt) : hostPart true xs = hostStmts xs := by
  induction xs with
  | nil => rfl
  | cons x rest ih => rw [hostPart, hostStmts, ih, Bool.and_true]

theorem hostStmts_append {ys : List Stmt} (hys : ys ≠ []) (xs : List Stmt) :
    hostStmts (xs ++ ys) = do
      let bound ← hostPart false xs
      let more ← hostStmts ys
      return bound ++ more := by
  induction xs with
  | nil =>
    funext s
    simp only [hostPart, List.nil_append, Bind.bind, Attempt.bind, Pure.pure, Attempt.pure]
    rcases hostStmts ys s with ⟨_ | more, s'⟩ <;> rfl
  | cons x rest ih =>
    have hempty : (rest ++ ys).isEmpty = (rest.isEmpty && false) := by simp [hys]
    funext s
    rw [List.cons_append, hostStmts, ih, hostPart, hempty]
    simp only [Bind.bind, Attempt.bind, Pure.pure, Attempt.pure]
    rcases hostStmt (rest.isEmpty && false) x s with ⟨_ | bound, s₁⟩
    · rfl
    · dsimp only
      rcases hostPart false rest s₁ with ⟨_ | more, s₂⟩
      · rfl
      · dsimp only
        rcases hostStmts ys s₂ with ⟨_ | last, s₃⟩ <;> simp

theorem hostPart_total (isLast : Bool) (xs : List Stmt) : Total (hostPart isLast xs) := by
  induction xs with
  | nil => exact Total.pure
  | cons x rest ih => exact (hostStmt_total _ x).bind fun _ => ih.bind fun _ => Total.pure

theorem hostPart_hosts (hold : old.Valid) (isLast : Bool) : ∀ (xs : List Stmt) {s : BindState}
    {Γ : Locals}, s.Hosted old → s.At (hostContext s) Γ →
    Hosts old Γ s (hostPart isLast xs s) fun _ _ _ => True
  | [], _, _, h, hat => Hosts.pure h hat trivial
  | x :: rest, _, _, h, hat => by
    unfold hostPart
    refine Hosts.bind (hostStmt_hosts hold h hat _ x) (fun bs s₁ Δ _ h₁ _ hat₁ _ => ?_)
      fun _ => (hostPart_total isLast rest).bind fun _ => Total.pure
    refine Hosts.bind (hostPart_hosts hold isLast rest h₁ hat₁) (fun more s₂ Θ _ h₂ _ hat₂ _ => ?_)
      fun _ => Total.pure
    exact Hosts.pure h₂ hat₂ fun _ _ => trivial

theorem hostPart_follows (hold : old.Valid) : ∀ (xs : List Stmt) {s t : BindState}
    {vs : List NewVariable} {Γ : Locals}, s.Hosted old → s.At (hostContext s) Γ → s.Twin g vs t →
    t.body.scopes.inner = [] →
    Follows g (List.map (BoundStmt.lift g.shift g.keeps)) (hostPart g.keeps xs s) (hostStmts xs t)
  | [], _, _, _, _, _, _, ht, htop => .pure rfl ht htop
  | x :: rest, _, _, _, _, h, hat, ht, htop => by
    unfold hostPart hostStmts
    refine (hostStmt_follows hold h hat ht htop rfl x).bind (hostStmt_hosts hold h hat _ x)
      (fun bs s₁ Δ h₁ hat₁ hi => ?_) fun bs s₁ t₁ _ Δ h₁ hat₁ ht₁ htop₁ => ?_
    · have hgrow : Hosts old Δ s₁ _ fun _ _ _ => True :=
        Hosts.bind (hostPart_hosts hold g.keeps rest h₁ hat₁)
          (fun more s₂ Θ _ h₂ _ hat₂ _ => Hosts.pure (a := bs ++ more) h₂ hat₂ fun _ => trivial)
          fun _ => Total.pure
      exact hgrow.2.1.issues hi
    · refine (hostPart_follows hold rest h₁ hat₁ ht₁ htop₁).bind
        (hostPart_hosts hold g.keeps rest h₁ hat₁) (fun _ _ _ _ _ hi => hi) ?_
      exact fun more s₂ t₂ _ _ _ _ ht₂ htop₂ => .pure (List.map_append).symm ht₂ htop₂

end Bind

end Chunkwise
