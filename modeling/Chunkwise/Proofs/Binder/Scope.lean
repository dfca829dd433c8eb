import Chunkwise.Binder.Stmt
import Chunkwise.Proofs.Binder.Expr

/-!
Binding a statement adds to the innermost scope at most and never gives a frame slot twice. `At`
ties the scopes to the locals that are set, and `Scoped` is the contract of binding that may define
locals: what it yields is judged by the locals afterwards, and giving up leaves them as they were.
-/
namespace Chunkwise

open Attempt

/-- Only the innermost scope has changed, and frame slots were only added. -/
structure Scopes.Leads (a b : Scopes) : Prop where
  outer : b.all.tail = a.all.tail
  depth : b.inner.length = a.inner.length
  kind : b.innermost.kind = a.innermost.kind
  names : ∀ name, a.definedHere name = true → b.definedHere name = true
  nextSlot : a.nextSlot ≤ b.nextSlot

namespace Scopes

variable {a b d : Scopes}

theorem all_eq (a : Scopes) : a.all = a.innermost :: a.all.tail := by
  unfold all innermost
  cases a.inner <;> rfl

theorem Leads.refl (a : Scopes) : a.Leads a := ⟨rfl, rfl, rfl, fun _ h => h, Nat.le_refl _⟩

theorem Leads.trans (h : a.Leads b) (h' : b.Leads d) : a.Leads d :=
  ⟨h'.outer.trans h.outer, h'.depth.trans h.depth, h'.kind.trans h.kind,
    fun name hn => h'.names name (h.names name hn), Nat.le_trans h.nextSlot h'.nextSlot⟩

theorem Leads.inLoop (h : a.Leads b) : b.inLoop = a.inLoop := by
  unfold Scopes.inLoop
  rw [all_eq a, all_eq b, List.any_cons, List.any_cons, h.outer, h.kind]

theorem Leads.pop {kind : ScopeKind} (h : (a.push kind).Leads b) :
    b.pop.all = a.all ∧ a.Leads b.pop := by
  have hall : b.pop.all = b.all.tail := by
    have hdepth := h.depth
    unfold all Scopes.pop
    cases hb : b.inner with
    | nil => simp [hb, push] at hdepth
    | cons scope rest => rfl
  have heq : b.pop.all = a.all := hall.trans h.outer
  have hinner : b.pop.innermost = a.innermost :=
    (List.cons.inj ((all_eq b.pop).symm.trans (heq.trans (all_eq a)))).1
  refine ⟨heq, by rw [heq], ?_, by rw [hinner], fun name hn => ?_, h.nextSlot⟩
  · have hdepth := h.depth
    simp [Scopes.pop, push] at hdepth ⊢
    omega
  · unfold definedHere at hn ⊢
    rwa [hinner]

theorem insert_all (a : Scopes) (name : String) (x : Binding) :
    (a.insert name x).all =
      { a.innermost with bindings := (name, x) :: a.innermost.bindings } :: a.all.tail := by
  unfold insert all innermost
  cases a.inner <;> rfl

theorem insert_innermost (a : Scopes) (name : String) (x : Binding) :
    (a.insert name x).innermost =
      { a.innermost with bindings := (name, x) :: a.innermost.bindings } :=
  (List.cons.inj ((all_eq _).symm.trans (insert_all a name x))).1

@[simp]
theorem insert_nextSlot (a : Scopes) (name : String) (x : Binding) :
    (a.insert name x).nextSlot = a.nextSlot := by
  unfold insert
  cases a.inner <;> rfl

theorem definedHere_insert (a : Scopes) (name : String) (x : Binding) (n : String) :
    (a.insert name x).definedHere n = (n == name || a.definedHere n) := by
  unfold definedHere
  rw [insert_innermost, List.lookup_cons]
  cases n == name <;> rfl

theorem insert_leads (a : Scopes) (name : String) (x : Binding) : a.Leads (a.insert name x) := by
  refine ⟨by rw [insert_all]; rfl, ?_, ?_, fun n hn => ?_, ?_⟩
  · unfold insert
    cases a.inner <;> rfl
  · unfold insert innermost
    cases a.inner <;> rfl
  · rw [definedHere_insert, hn, Bool.or_true]
  · exact Nat.le_of_eq (insert_nextSlot a name x).symm

end Scopes

/-- The same state with other scopes. -/
def BindState.withScopes (s : BindState) (scopes : Scopes) : BindState :=
  { s with body := { s.body with scopes } }

/-- The state stands in the body described by the context, and these locals are set. -/
structure BindState.At (c : CodeContext) (Γ : Locals) (s : BindState) : Prop where
  fits : s.Fits (c.typing Γ)
  cache : ∀ x ∈ s.cache, x.2.Known s.image
  returns : c.returns = s.body.returns
  result : ∀ t, c.returns = some t → c.image.Knows t
  bound : ∀ i t, Γ i = some t → i < s.body.scopes.nextSlot

/-- Nothing but issues, remembered names and the innermost scope has changed. -/
structure BindState.Moved (s s' : BindState) : Prop where
  image : s'.image = s.image
  undo : s'.undo = s.undo
  registry : s'.registry = s.registry
  store : s'.store = s.store
  usings : s'.usings = s.usings
  newVariables : s'.newVariables = s.newVariables
  declared : s'.declared = s.declared
  ctx : s'.body.ctx = s.body.ctx
  thisType : s'.body.thisType = s.body.thisType
  returns : s'.body.returns = s.body.returns
  inConstructor : s'.body.inConstructor = s.body.inConstructor
  scopes : s.body.scopes.Leads s'.body.scopes
  issues : s.issues.hasAny = true → s'.issues.hasAny = true

theorem Binding.Ok.le {c : CodeContext} {Γ Δ : Locals} (hle : Γ.Le Δ) :
    ∀ {x : Binding}, x.Ok (c.typing Γ) → x.Ok (c.typing Δ)
  | .frame i t _, h => ⟨hle i t h.1, h.2⟩
  | .variable _ _ _, h => h

namespace BindState

variable {s s' s'' : BindState} {c : CodeContext} {Γ Δ : Locals}

theorem Quiet.moved (h : s.Quiet s') : s.Moved s' :=
  ⟨h.image, h.undo, h.registry, h.store, h.usings, h.newVariables, h.declared, by rw [h.body],
    by rw [h.body], by rw [h.body], by rw [h.body], by rw [h.body]; exact .refl _, h.issues⟩

theorem Moved.trans (h : s.Moved s') (h' : s'.Moved s'') : s.Moved s'' :=
  ⟨h'.image.trans h.image, h'.undo.trans h.undo, h'.registry.trans h.registry,
    h'.store.trans h.store, h'.usings.trans h.usings, h'.newVariables.trans h.newVariables,
    h'.declared.trans h.declared, h'.ctx.trans h.ctx, h'.thisType.trans h.thisType,
    h'.returns.trans h.returns, h'.inConstructor.trans h.inConstructor, h.scopes.trans h'.scopes,
    fun hi => h'.issues (h.issues hi)⟩

/-- What a context describes depends on the scopes only through their bindings. -/
theorem Fits.replace {c' : TypingContext} (h : s.Fits (c.typing Γ)) (himage : s'.image = s.image)
    (husings : s'.usings = s.usings) (hregistry : s'.registry = s.registry)
    (hstore : s'.store = s.store) (hthis : s'.body.thisType = s.body.thisType)
    (hreturns : s'.body.returns = s.body.returns) (hc : c' = c.typing Δ)
    (hscopes : ∀ scope ∈ s'.body.scopes.all, ∀ x ∈ scope.bindings, x.2.Ok c') : s'.Fits c' where
  image := by rw [hc, himage]; exact h.image
  self := by rw [hc, hthis]; exact h.self
  usings := by
    have := h.usings
    unfold UsingsKnown allUsings at this ⊢
    rwa [himage, husings]
  sigs := by rw [hc]; exact h.sigs
  objects := by rw [hc]; exact h.objects
  statics := by rw [hc]; exact h.statics
  registry hhost := by
    rw [hc, hregistry, hstore]
    refine h.registry ?_
    unfold BodyContext.isHost at hhost ⊢
    rwa [← hreturns]
  scopes := hscopes

theorem At.moved (h : s.At c Γ) (hm : s.Moved s') (hall : s'.body.scopes.all = s.body.scopes.all)
    (hcache : ∀ x ∈ s'.cache, x.2.Known s'.image) : s'.At c Γ := by
  refine ⟨h.fits.replace hm.image hm.usings hm.registry hm.store hm.thisType hm.returns rfl ?_,
    hcache, h.returns.trans hm.returns.symm, h.result, fun i t hi => ?_⟩
  · rw [hall]
    exact h.fits.scopes
  · exact Nat.lt_of_lt_of_le (h.bound i t hi) hm.scopes.nextSlot

theorem At.quiet (h : s.At c Γ) (hq : s.Quiet s') : s'.At c Γ :=
  h.moved hq.moved (by rw [hq.body]) hq.cache

end BindState

namespace Bind

variable {α β : Type} {c : CodeContext} {Γ Δ : Locals}

/-- The contract of binding that may define locals. The property of the value is told whether a
loop is around, the number of frame slots given so far and the locals set. -/
def Scoped (c : CodeContext) (Γ : Locals) (p : Bind α) (Q : Bool → Nat → Locals → α → Prop) :
    Prop :=
  ∀ s : BindState, s.At c Γ → match p s with
    | (some a, s') => s.Moved s' ∧ ∃ Δ, Γ.Le Δ ∧ s'.At c Δ ∧
        Q s.body.scopes.inLoop s'.body.scopes.nextSlot Δ a
    | (none, s') => s.Moved s' ∧ s'.At c Γ

/-- An attempt that does not give up. -/
def Total {σ : Type} (p : Attempt σ α) : Prop := ∀ s, (p s).1 ≠ none

namespace Total

variable {σ : Type}

theorem pure {a : α} : Total (Pure.pure a : Attempt σ α) := fun _ h => by cases h

theorem optional {p : Attempt σ α} : Total (Attempt.optional p) := fun _ h => by
  unfold Attempt.optional at h
  cases h

theorem bind {p : Attempt σ α} {f : α → Attempt σ β} (hp : Total p) (hf : ∀ a, Total (f a)) :
    Total (p >>= f) := by
  intro s h
  change (Attempt.bind p f s).1 = none at h
  unfold Attempt.bind at h
  split at h
  · next a s' _ => exact hf a s' h
  · next s' heq => exact hp s (by rw [heq])

theorem modify {f : σ → σ} : Total (Attempt.modify f) := fun _ h => by cases h

theorem triple {p : Attempt σ α} {P E E' : σ → Prop} {Q : α → σ → Prop} (hp : Total p)
    (h : Triple P p Q E) : Triple P p Q E' := by
  intro s hs
  have hq := h s hs
  have ht := hp s
  revert hq ht
  rcases p s with ⟨_ | a, s'⟩
  · exact fun _ ht => absurd rfl ht
  · exact fun hq _ => hq

theorem forAll {f : α → Attempt σ β} (as : List α) : Total (Attempt.forAll f as) := by
  induction as with
  | nil => exact pure
  | cons a as ih => exact optional.bind fun _ => ih.bind fun _ => pure

theorem keepSome {f : α → Attempt σ β} (as : List α) : Total (Attempt.keepSome f as) :=
  (forAll as).bind fun _ => pure

end Total

namespace Scoped

variable {p : Bind α} {Q Q' : Bool → Nat → Locals → α → Prop} {R : Bool → Nat → Locals → β → Prop}

theorem mono (h : Scoped c Γ p Q) (hq : ∀ loop n Δ a, Γ.Le Δ → Q loop n Δ a → Q' loop n Δ a) :
    Scoped c Γ p Q' := by
  intro s hs
  have hp := h s hs
  revert hp
  rcases p s with ⟨_ | a, s'⟩
  · exact id
  · rintro ⟨hm, Δ, hle, hat, ha⟩
    exact ⟨hm, Δ, hle, hat, hq _ _ Δ a hle ha⟩

theorem pure {a : α} (h : ∀ loop n, Q loop n Γ a) : Scoped c Γ (Pure.pure a : Bind α) Q :=
  fun _ hs => ⟨(BindState.Quiet.refl hs.cache).moved, Γ, .refl Γ, hs, h _ _⟩

theorem fail : Scoped c Γ (Attempt.fail : Bind α) Q :=
  fun _ hs => ⟨(BindState.Quiet.refl hs.cache).moved, hs⟩

theorem ofQuiet {P : α → Prop} (h : ∀ s : BindState, s.At c Γ → Yields s.Quiet p P) :
    Scoped c Γ p fun _ _ Δ a => Δ = Γ ∧ P a := by
  intro s hs
  have hp := h s hs s (.refl hs.cache)
  revert hp
  rcases p s with ⟨_ | a, s'⟩
  · exact fun hq => ⟨hq.moved, hs.quiet hq⟩
  · exact fun ⟨hq, ha⟩ => ⟨hq.moved, Γ, .refl Γ, hs.quiet hq, rfl, ha⟩

theorem bindSame {P : Bool → Nat → α → Prop} {f : α → Bind β}
    (hp : Scoped c Γ p fun loop n Δ a => Δ = Γ ∧ P loop n a)
    (hf : ∀ a loop n, P loop n a → Scoped c Γ (f a) fun loop' m Θ b =>
      loop' = loop → n ≤ m → R loop m Θ b) : Scoped c Γ (p >>= f) R := by
  intro s hs
  have h := hp s hs
  change match Attempt.bind p f s with
    | (some a, s') => s.Moved s' ∧ ∃ Δ, Γ.Le Δ ∧ s'.At c Δ ∧
        R s.body.scopes.inLoop s'.body.scopes.nextSlot Δ a
    | (none, s') => s.Moved s' ∧ s'.At c Γ
  unfold Attempt.bind
  revert h
  rcases p s with ⟨_ | a, s'⟩
  · exact id
  · rintro ⟨hm, Δ, -, hat, rfl, ha⟩
    have h' := hf a _ _ ha s' hat
    revert h'
    simp only
    rcases f a s' with ⟨_ | b, s''⟩
    · exact fun ⟨hm', hat'⟩ => ⟨hm.trans hm', hat'⟩
    · rintro ⟨hm', Θ, hle', hat', hr⟩
      exact ⟨hm.trans hm', Θ, hle', hat', hr hm.scopes.inLoop hm'.scopes.nextSlot⟩

theorem bindQuiet {P : α → Prop} {f : α → Bind β}
    (h : ∀ s : BindState, s.At c Γ → Yields s.Quiet p P)
    (hf : ∀ a, P a → Scoped c Γ (f a) R) : Scoped c Γ (p >>= f) R :=
  (ofQuiet h).bindSame fun a _ _ ha => (hf a ha).mono fun _ _ _ _ _ hr hloop _ => hloop ▸ hr

theorem bind {f : α → Bind β} (hp : Scoped c Γ p Q)
    (hf : ∀ a loop n Δ, Γ.Le Δ → Q loop n Δ a → Scoped c Δ (f a) fun loop' m Θ b =>
      loop' = loop → n ≤ m → R loop m Θ b)
    (htotal : ∀ a, Total (f a)) : Scoped c Γ (p >>= f) R := by
  intro s hs
  have h := hp s hs
  change match Attempt.bind p f s with
    | (some a, s') => s.Moved s' ∧ ∃ Δ, Γ.Le Δ ∧ s'.At c Δ ∧
        R s.body.scopes.inLoop s'.body.scopes.nextSlot Δ a
    | (none, s') => s.Moved s' ∧ s'.At c Γ
  unfold Attempt.bind
  revert h
  rcases p s with ⟨_ | a, s'⟩
  · exact id
  · rintro ⟨hm, Δ, hle, hat, ha⟩
    have h' := hf a _ _ Δ hle ha s' hat
    have ht := htotal a s'
    revert h' ht
    simp only
    rcases f a s' with ⟨_ | b, s''⟩
    · exact fun _ ht => absurd rfl ht
    · rintro ⟨hm', Θ, hle', hat', hr⟩ -
      exact ⟨hm.trans hm', Θ, hle.trans hle', hat',
        hr hm.scopes.inLoop hm'.scopes.nextSlot⟩

theorem triple {s : BindState} {E : BindState → Prop} (hp : Scoped c Γ p Q) (htotal : Total p)
    (hs : s.At c Γ) : Triple (· = s) p (fun a s' => s.Moved s' ∧ ∃ Δ, Γ.Le Δ ∧ s'.At c Δ ∧
      Q s.body.scopes.inLoop s'.body.scopes.nextSlot Δ a) E := by
  refine Total.triple htotal (E := fun _ => True) ?_
  rintro s' rfl
  have h := hp s' hs
  revert h
  rcases p s' with ⟨_ | a, s''⟩
  · exact fun _ => trivial
  · exact id

theorem optional (hp : Scoped c Γ p Q) :
    Scoped c Γ (Attempt.optional p) fun loop n Δ a? =>
      match a? with
      | some a => Q loop n Δ a
      | none => Δ = Γ := by
  intro s hs
  have h := hp s hs
  unfold Attempt.optional
  revert h
  rcases p s with ⟨_ | a, s'⟩
  · exact fun ⟨hm, hat⟩ => ⟨hm, Γ, .refl Γ, hat, rfl⟩
  · exact id

end Scoped

end Bind

end Chunkwise
