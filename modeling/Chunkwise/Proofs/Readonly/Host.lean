import Chunkwise.Proofs.Faithful.Unit
import Chunkwise.Proofs.Readonly.Stmt
import Chunkwise.Proofs.Session.Binding

/-!
Statements at the top of a chunk create variables as they are bound, so a guard that covers the end of
a chunk may let more be written than one that covers its start. `Obeys` is the contract of a
top-level step: whatever guard covers its end covers its start as well and permits what was bound.
-/
namespace Chunkwise

open Attempt

namespace BindState

variable {s : BindState} {w : Site}

theorem addVariable_adds (s : BindState) {t : Ty} (ht : s.image.Knows t) (name : String)
    (isReadonly : Bool) :
    s.store.Adds s.image (Bind.addVariable name t isReadonly s).2.store := .addSlot _ _ _ ht

theorem Stands.newVariable (h : s.Stands w) {t : Ty} (ht : s.image.Knows t) (name : String)
    (isReadonly : Bool) : (Bind.addVariable name t isReadonly s).2.Stands w := by
  have hadds := s.addVariable_adds ht name isReadonly
  have hoffers : ∀ {i u}, s.store.Offers false i u →
      (Bind.addVariable name t isReadonly s).2.store.Offers false i u := fun ho => hadds.offers ho
  have hscopes : (Bind.addVariable name t isReadonly s).2.body.scopes =
      (s.body.scopes.defineVariable name s.store.slots.size t isReadonly).2 := rfl
  have hbindings : ∀ {Q : Binding → Prop}, Q (.variable s.store.slots.size t isReadonly) →
      (∀ scope ∈ s.body.scopes.all, ∀ x ∈ scope.bindings, Q x.2) →
      ∀ scope ∈ (Bind.addVariable name t isReadonly s).2.body.scopes.all,
        ∀ x ∈ scope.bindings, Q x.2 := by
    intro Q hnew hold
    rw [hscopes, Scopes.defineVariable]
    split
    · exact hold
    · exact Scopes.forall_insert hnew hold
  have hnext : (Bind.addVariable name t isReadonly s).2.body.scopes.nextSlot =
      s.body.scopes.nextSlot := by
    rw [hscopes, Scopes.defineVariable]
    split
    · rfl
    · exact s.body.scopes.insert_nextSlot _ _
  have hregistry : ∀ (v : Variable) (slot : Slot),
      (Bind.addVariable name t isReadonly s).2.store.slots[v.slot]? = some slot →
      (∀ slot, s.store.slots[v.slot]? = some slot → s.image.Knows slot.type) →
      s.image.Knows slot.type := by
    intro v slot hslot hold
    rcases Nat.lt_or_ge v.slot s.store.slots.size with hlt | hge
    · rw [hadds.old v.slot hlt] at hslot
      exact hold slot hslot
    · exact (hadds.new v.slot slot hge hslot).2.1
  refine ⟨⟨rfl, h.fits.self, h.fits.usings, h.fits.sigs, h.fits.objects,
    fun i u hi => hoffers (h.fits.statics i u hi), fun hhost n v slot hv hslot => ?_, ?_⟩,
    h.cache, h.self, h.inConstructor, hnext.trans h.next, ?_⟩
  · have hk := hregistry v slot hslot fun slot' hslot' =>
      (h.fits.registry hhost n v slot' hv hslot').2
    exact ⟨⟨slot, hslot, rfl, by simp⟩, hk⟩
  · refine hbindings (Q := fun b => b.Ok _) ⟨Store.offers_addSlot _ _ _ _ _, ht⟩
      fun scope hscope x hx => ?_
    have hok := h.fits.scopes scope hscope x hx
    cases hb : x.2 with
    | frame => rwa [hb] at hok
    | «variable» =>
      rw [hb] at hok
      exact ⟨hoffers hok.1, hok.2⟩
  · refine hbindings (Q := fun b => b.Stands w _) ?_ fun scope hscope x hx => ?_
    · exact ⟨_, List.mem_append_right _ (List.mem_singleton_self _), rfl, rfl⟩
    · have hstands := h.bindings scope hscope x hx
      cases hb : x.2 with
      | frame => rwa [hb] at hstands
      | «variable» =>
        rw [hb] at hstands
        obtain ⟨v, hv, hslot⟩ := hstands
        exact ⟨v, List.mem_append_left _ hv, hslot⟩

end BindState

namespace Guard

variable {g : Guard} {s : BindState}

/-- The guard that lets every slot be written. -/
def all (s : BindState) : Guard := ⟨s.image, s.store.Offers false, fun _ => True⟩

theorem all_covers (s : BindState) : (all s).Covers s where
  image := .refl _
  slots _ _ h := h
  statics _ _ := trivial
  registry _ _ _ _ := trivial
  created _ _ _ := trivial

theorem Covers.newVariable {t : Ty} {name : String} {isReadonly : Bool}
    (h : g.Covers (Bind.addVariable name t isReadonly s).2) (ht : s.image.Knows t) : g.Covers s where
  image := h.image
  slots i u hi := h.slots i u ((s.addVariable_adds ht name isReadonly).offers hi)
  statics := h.statics
  registry := h.registry
  created v hv := h.created v (List.mem_append_left _ hv)

end Guard

theorem Guard.DeclaresVariables.append {g : Guard} {w : Site} {isConst : Bool} {ds ds' : List Declarator}
    {vs vs' : List PendingVariable} {bs bs' : List BoundStmt}
    (h : g.DeclaresVariables w isConst ds vs bs) (h' : g.DeclaresVariables w isConst ds' vs' bs') :
    g.DeclaresVariables w isConst (ds ++ ds') (vs ++ vs') (bs ++ bs') := by
  induction h with
  | nil => exact h'
  | unset hinit _ ih => exact .unset hinit ih
  | set hsets safe _ ih => exact .set hsets safe ih

theorem BindState.count_eq_zero {s : BindState} (h : s.issues.hasAny = false) : s.count = 0 :=
  Nat.eq_zero_of_not_pos fun hpos => Bool.eq_false_iff.mp h (decide_eq_true hpos)

theorem BindState.clean_of_count {s : BindState} (h : s.count = 0) : s.issues.hasAny = false := by
  have htotal : s.issues.total = 0 := h
  simp [Log.hasAny, htotal]

theorem Careful.recall {α : Type} {P : BindState → Prop} {p : Bind α}
    {Q : α → BindState → Prop} (h : Careful P p Q) : Careful P p fun a s => Q a s ∧ ∃ s₀, P s₀ := by
  refine ⟨h.grows, fun s hs => ?_⟩
  have hends := h.ends s hs
  revert hends
  rcases p s with ⟨_ | a, s'⟩
  · exact id
  · exact fun hends hcount => ⟨hends hcount, s, hs⟩

/-- Careful binding at the top of a chunk from a state with `P`: it creates variables, and whatever guard
covers its end covers its start and permits what was bound, from wherever the start stands. -/
def Obeys {α : Type} (P : BindState → Prop) (p : Bind α)
    (R : Guard → Site → α → List PendingVariable → Site → Prop) : Prop :=
  ∀ s₀ : BindState, Careful (fun s => s = s₀ ∧ P s ∧ ∃ w, s.Stands w) p fun a s =>
    ∃ vs, s.newVariables = s₀.newVariables ++ vs ∧ ∀ g : Guard, g.Covers s → g.Covers s₀ ∧
      ∀ w, s₀.Stands w → ∃ w', s.Stands w' ∧ R g w a vs w'

namespace Obeys

variable {α β : Type} {P P' : BindState → Prop} {p : Bind α}
  {R R' : Guard → Site → α → List PendingVariable → Site → Prop}

theorem mono (h : Obeys P p R) (hP : ∀ s, P' s → P s)
    (hR : ∀ g w a vs w', R g w a vs w' → R' g w a vs w') : Obeys P' p R' := by
  intro s₀
  refine (h s₀).mono (fun s hs => ⟨hs.1, hP s hs.2.1, hs.2.2⟩) ?_
  rintro a s ⟨vs, hvs, hg⟩
  refine ⟨vs, hvs, fun g hcovers => ⟨(hg g hcovers).1, fun w hw => ?_⟩⟩
  obtain ⟨w', hw', hr⟩ := (hg g hcovers).2 w hw
  exact ⟨w', hw', hR _ _ _ _ _ hr⟩

theorem pure {a : α} (h : ∀ g w, R g w a [] w) : Obeys P (Pure.pure a) R := by
  intro s₀
  refine Careful.pure ?_
  rintro s ⟨rfl, -, -⟩
  exact ⟨[], by simp, fun g hg => ⟨hg, fun w hw => ⟨w, hw, h g w⟩⟩⟩

/-- One step after another. What is known where the first ends is what it gives under the guard that lets
every slot be written. -/
theorem bind {f : α → Bind β} {S : Guard → Site → β → List PendingVariable → Site → Prop}
    (hp : Obeys P p R)
    (hf : ∀ a, Obeys (fun s => ∃ w vs w', R (.all s) w a vs w') (f a) fun g w₁ b vs' w' =>
      ∀ w vs, R g w a vs w₁ → S g w b (vs ++ vs') w') : Obeys P (p >>= f) S := by
  intro s₀
  refine (Careful.recall (hp s₀)).bind fun a => Careful.start (hf a s₀).grows ?_
  rintro s₁ ⟨⟨vs, hvs, hobeys⟩, s, rfl, -, w, hw⟩
  obtain ⟨w₁, hw₁, hr⟩ := (hobeys _ (Guard.all_covers s₁)).2 w hw
  refine (hf a s₁).mono ?_ ?_
  · rintro _ rfl
    exact ⟨rfl, ⟨w, vs, w₁, hr⟩, w₁, hw₁⟩
  · rintro b s₂ ⟨vs', hvs', hobeys'⟩
    refine ⟨vs ++ vs', by rw [hvs', hvs, List.append_assoc], fun g hg => ?_⟩
    obtain ⟨hg₁, hnext⟩ := hobeys' g hg
    obtain ⟨hg₀, hfirst⟩ := hobeys g hg₁
    refine ⟨hg₀, fun w hw => ?_⟩
    obtain ⟨w₁, hw₁, hr⟩ := hfirst w hw
    obtain ⟨w₂, hw₂, hs⟩ := hnext w₁ hw₁
    exact ⟨w₂, hw₂, hs w vs hr⟩

theorem bindQuiet {f : α → Bind β} {Q : Guard → Site → α → Prop}
    {S : Guard → Site → β → List PendingVariable → Site → Prop}
    (hp : Obeys P p fun g w a vs w' => vs = [] ∧ w' = w ∧ Q g w a)
    (hf : ∀ a, Obeys (fun s => ∃ w, Q (.all s) w a) (f a) fun g w b vs w' =>
      Q g w a → S g w b vs w') : Obeys P (p >>= f) S := by
  refine hp.bind fun a => (hf a).mono ?_ ?_
  · rintro s ⟨w, -, -, -, -, hq⟩
    exact ⟨w, hq⟩
  · rintro g w₁ b vs w' hs w _ ⟨rfl, rfl, hq⟩
    exact hs hq

theorem map {f : α → β} {S : Guard → Site → β → List PendingVariable → Site → Prop}
    (hp : Obeys P p R) (h : ∀ g w a vs w', R g w a vs w' → S g w (f a) vs w') :
    Obeys P (do return f (← p)) S := by
  refine hp.bind fun a => pure fun g w₁ w vs hr => ?_
  rw [List.append_nil]
  exact h g w a vs w₁ hr

theorem optional (h : Obeys P p R) :
    Obeys P (Attempt.optional p) fun g w a? vs w' => ∃ a, a? = some a ∧ R g w a vs w' := by
  intro s₀
  refine (Careful.optional (h s₀)).mono (fun _ hs => hs) ?_
  rintro a? s ⟨a, rfl, vs, hvs, hg⟩
  refine ⟨vs, hvs, fun g hcovers => ⟨(hg g hcovers).1, fun w hw => ?_⟩⟩
  obtain ⟨w', hw', hr⟩ := (hg g hcovers).2 w hw
  exact ⟨w', hw', a, rfl, hr⟩

/-- A step that is guarded from where it starts, and creates no variable. -/
theorem ofGuarded {Q : Guard → Site → α → Site → Prop} {S : α → Prop}
    (hsure : Sure (fun _ => True) True p S)
    (h : ∀ (g : Guard) (s₀ : BindState), g.Covers s₀ → P s₀ → ∀ w,
      Guarded g s₀ (· = w) p fun w' a => Q g w a w') :
    Obeys P p fun g w a vs w' => vs = [] ∧ Q g w a w' := by
  refine fun s₀ => ⟨hsure.grows, ?_⟩
  rintro s ⟨rfl, hs, w₀, hw₀⟩
  have hends := fun (g : Guard) (hg : g.Covers s) (w : Site) (hw : s.Stands w) =>
    (h g s hg hs w).ends s ⟨w, ⟨hw, hg, .refl s⟩, rfl⟩
  have hall := hends _ (Guard.all_covers s) w₀ hw₀
  revert hall hends
  rcases p s with ⟨_ | a, s'⟩
  · exact fun _ hall => hall
  · intro hends hall hcount
    obtain ⟨-, ⟨-, -, hb⟩, -⟩ := hall hcount
    refine ⟨[], by rw [hb.newVariables, List.append_nil], fun g hg => ?_⟩
    have hg₀ : g.Covers s := hg.beside hb.symm
    refine ⟨hg₀, fun w hw => ?_⟩
    obtain ⟨w', hat, hq⟩ := hends g hg₀ w hw hcount
    exact ⟨w', hat.1, rfl, hq⟩

theorem andSure {S : α → Prop} (h : Obeys P p R) (hsure : Sure (fun _ => True) True p S) :
    Obeys P p fun g w a vs w' => R g w a vs w' ∧ S a := by
  refine fun s₀ => (Careful.and (h s₀) hsure).mono (fun _ hs => ⟨hs, trivial, trivial⟩) ?_
  rintro a s ⟨⟨vs, hvs, hg⟩, -, hs⟩
  refine ⟨vs, hvs, fun g hcovers => ⟨(hg g hcovers).1, fun w hw => ?_⟩⟩
  obtain ⟨w', hw', hr⟩ := (hg g hcovers).2 w hw
  exact ⟨w', hw', hr, hs⟩

theorem created (h : Obeys P p R) : Obeys P p fun g w a vs w' =>
    R g w a vs w' ∧ ∀ v ∈ vs, v.isReadonly = false → g.opens v.slot := by
  refine fun s₀ => (h s₀).mono (fun _ hs => hs) ?_
  rintro a s ⟨vs, hvs, hg⟩
  refine ⟨vs, hvs, fun g hcovers => ⟨(hg g hcovers).1, fun w hw => ?_⟩⟩
  obtain ⟨w', hw', hr⟩ := (hg g hcovers).2 w hw
  exact ⟨w', hw', hr, fun v hv => hcovers.created v (hvs ▸ List.mem_append_right _ hv)⟩

theorem clean (h : Obeys P p R) {s : BindState} (hs : P s) {w : Site} (hw : s.Stands w) :
    Triple (· = s) p (fun a s' => s'.issues.hasAny = false → s.issues.hasAny = false ∧
      ∀ g : Guard, g.Covers s' → g.Covers s ∧ ∃ vs w', R g w a vs w') fun _ => True := by
  intro s₁ hs₁
  subst hs₁
  have hends := (h s₁).ends s₁ ⟨rfl, hs, w, hw⟩
  have hcounts := ((h s₁).grows s₁).count
  revert hends hcounts
  rcases p s₁ with ⟨_ | a, s'⟩
  · exact fun _ _ => trivial
  · intro hends hcounts hclean
    have hzero : s'.count = 0 := BindState.count_eq_zero hclean
    have hstart : s₁.count = 0 := Nat.eq_zero_of_le_zero (hzero ▸ hcounts)
    obtain ⟨vs, -, hobeys⟩ := hends (hzero.trans hstart.symm)
    refine ⟨BindState.clean_of_count hstart, fun g hg => ⟨(hobeys g hg).1, ?_⟩⟩
    obtain ⟨w', -, hr⟩ := (hobeys g hg).2 w hw
    exact ⟨vs, w', hr⟩

theorem refuse (problem : Problem) (span : Span) : Obeys P (Bind.refuse problem span) R :=
  fun _ => Careful.refuse problem span

end Obeys

namespace Bind

variable {P : BindState → Prop}

theorem body_obeys : Obeys P body fun _ w _ vs w' => vs = [] ∧ w' = w ∧ True :=
  Obeys.ofGuarded body_sure fun _ _ _ _ _ => body_guarded.mono (fun _ hw => hw) fun _ _ hw =>
    ⟨hw, trivial⟩

theorem addVariable_obeys (name : String) (t : Ty) (isReadonly : Bool) :
    Obeys (fun s => s.image.Knows t) (addVariable name t isReadonly) fun _ w slot vs w' =>
      w' = w ∧ vs = [⟨name, slot, isReadonly⟩] := by
  intro s₀
  refine ⟨(addVariable_sure (J := fun _ => True) (H := True) name t isReadonly).grows, ?_⟩
  rintro s ⟨rfl, ht, -⟩ -
  refine ⟨[⟨name, s.store.slots.size, isReadonly⟩], rfl, fun g hg => ⟨hg.newVariable ht, ?_⟩⟩
  exact fun w hw => ⟨w, hw.newVariable ht name isReadonly, rfl, rfl⟩

theorem declarator_obeys (decl : LocalDecl) (d : Declarator) :
    Obeys P (declarator decl d) fun g w x vs w' => vs = [] ∧ w' = w ∧
      (g.image.Knows x.1 ∧ ∀ e, x.2 = some e → g.Safe w e) := by
  refine Obeys.ofGuarded (declarator_sure decl d) fun g s₀ hg _ w => ?_
  refine (declarator_guarded decl d).mono (fun _ hw => hw) ?_
  rintro _ x ⟨rfl, hk, hinit⟩
  exact ⟨rfl, hg.image.knows hk, fun e he => (hinit e he).2⟩

/-- The declarator of a variable creates it and sets it if it has an initial value. -/
theorem hostVariable_obeys (decl : LocalDecl) (d : Declarator) :
    Obeys P (hostVariable decl d) fun g w b? vs w' =>
      w' = w ∧ g.DeclaresVariables w decl.isConst [d] vs b?.toList := by
  have hcode : Obeys P (hostVariable decl d) fun g w b? vs w' =>
      w' = w ∧ ∃ slot, vs = [⟨d.name.name, slot, decl.isConst⟩] ∧
        ∀ b, b? = some b → ∃ e, b = setVariable slot e ∧ g.Safe w e := by
    unfold hostVariable
    refine body_obeys.bindQuiet fun b => ?_
    split
    · exact Obeys.refuse _ _
    · refine (declarator_obeys decl d).bindQuiet fun x => ?_
      obtain ⟨t, init⟩ := x
      have hcreate : Obeys (fun s => ∃ w, s.image.Knows t ∧ ∀ e, init = some e →
          (Guard.all s).Safe w e) (addVariable d.name.name t decl.isConst) _ :=
        (addVariable_obeys _ t _).mono (fun _ ⟨_, hk, _⟩ => hk) fun _ _ _ _ _ h => h
      refine hcreate.bind fun slot => Obeys.pure ?_
      rintro g _ w vs ⟨rfl, rfl⟩ ⟨-, hinit⟩ -
      refine ⟨rfl, slot, rfl, fun b hb => ?_⟩
      obtain ⟨e, he, rfl⟩ := Option.map_eq_some_iff.mp hb
      exact ⟨e, rfl, hinit e he⟩
  refine (hcode.andSure (hostVariable_sure decl d)).mono (fun _ hs => hs) ?_
  rintro g w b? vs _ ⟨⟨rfl, slot, rfl, hb⟩, hsets⟩
  refine ⟨rfl, ?_⟩
  cases hinit : d.init with
  | none =>
    rw [Declarator.initialized, List.filter_singleton] at hsets
    simp only [hinit, Option.isSome_none] at hsets
    rw [List.forall₂_nil_left_iff.mp hsets]
    exact .unset hinit .nil
  | some e =>
    rw [Declarator.initialized, List.filter_singleton] at hsets
    simp only [hinit, Option.isSome_some] at hsets
    cases b? with
    | none => cases hsets
    | some b =>
      obtain ⟨be, rfl, hsafe⟩ := hb b rfl
      cases hsets with
      | cons hset _ => exact .set hset hsafe .nil

/-- The declarators of a declaration one after the other. -/
theorem eachVariable_obeys (decl : LocalDecl) : ∀ (ds : List Declarator) {P : BindState → Prop},
    Obeys P (Attempt.forAll (hostVariable decl) ds) fun g w out vs w' =>
      w' = w ∧ g.DeclaresVariables w decl.isConst ds vs ((out.filterMap id).filterMap id)
  | [], _ => Obeys.pure fun _ _ => ⟨rfl, .nil⟩
  | d :: ds, _ => by
    unfold Attempt.forAll
    refine (hostVariable_obeys decl d).optional.bind fun b? => (eachVariable_obeys decl ds).map ?_
    rintro g _ out vs' _ ⟨rfl, hds⟩ w vs ⟨b, rfl, rfl, hd⟩
    refine ⟨rfl, ?_⟩
    have hall := hd.append hds
    cases b <;> simpa using hall

theorem hostVariables_obeys (decl : LocalDecl) :
    Obeys P (hostVariables decl) fun g w bs vs w' =>
      w' = w ∧ g.DeclaresVariables w decl.isConst decl.declarators vs bs := by
  have heach : Obeys P (Attempt.keepSome (hostVariable decl) decl.declarators) fun g w bs vs w' =>
      w' = w ∧ g.DeclaresVariables w decl.isConst decl.declarators vs (bs.filterMap id) :=
    (eachVariable_obeys decl decl.declarators).map fun _ _ _ _ _ h => h
  exact heach.map fun _ _ _ _ _ h => h

theorem isUnbound_obeys (name : String) :
    Obeys P (isUnbound name) fun _ w _ vs w' => vs = [] ∧ w' = w ∧ True := by
  refine Obeys.ofGuarded (isUnbound_sure name) fun g s₀ _ _ w => ?_
  refine (Guarded.ofQuiet (Q := fun _ _ => True) (isUnbound_sure name) fun s w hs _ _ => ?_).mono
    (fun _ hw => hw) fun _ _ hw => ⟨hw.1, trivial⟩
  exact (isUnbound_quiet hs.fits.usings name).mono fun _ _ => trivial

theorem value_obeys (e : Expr) : Obeys P (value e) fun g w v vs w' => vs = [] ∧ w' = w ∧
    (g.image.Knows v.type ∧ g.Safe w v.expr) := by
  refine Obeys.ofGuarded (value_sure e) fun g s₀ hg _ w => ?_
  refine (Guarded.ofQuiet (Q := fun w v => g.image.Knows v.type ∧ g.Safe w v.expr) (value_sure e)
    fun s w hs hcovers _ => ?_).mono (fun _ hw => hw) fun _ _ hw => ⟨hw.1, hw.1 ▸ hw.2⟩
  exact (value_sound hs.fits (hcovers.opens hs) e).mono fun v hv =>
    ⟨hcovers.image.knows hv.1.1.2, hv.1.2⟩

/-- An assignment that declares its variable declares one that may be assigned. -/
theorem implicitVariable_obeys (name : String) (e : Expr) :
    Obeys P (implicitVariable name e) fun g w b vs w' => w' = w ∧
      (∃ be, b = .expr be ∧ g.Safe w be) ∧ ∀ v ∈ vs, v.isReadonly = false := by
  unfold implicitVariable
  refine (value_obeys e).bindQuiet fun v => ?_
  split
  · exact Obeys.refuse _ _
  · have hcreate : Obeys (fun s => ∃ w, (Guard.all s).image.Knows v.type ∧
        (Guard.all s).Safe w v.expr) (addVariable name v.type false) _ :=
      ((addVariable_obeys _ _ _).mono (fun _ ⟨_, hk, _⟩ => hk) fun _ _ _ _ _ h => h).created
    refine hcreate.map ?_
    rintro g w slot _ _ ⟨⟨rfl, rfl⟩, hopen⟩ ⟨-, hsafe⟩
    have hslot : g.opens slot := hopen _ (List.mem_singleton_self _) rfl
    exact ⟨rfl, ⟨_, rfl, .assign (.static slot) hslot hsafe⟩, by simp⟩

theorem hostExpr_obeys (isLast : Bool) (e : Expr) :
    Obeys P (hostExpr isLast e) fun g w b vs w' => w' = w ∧
      (∃ be, (b = .expr be ∨ b = .capture be) ∧ g.Safe w be) ∧ ∀ v ∈ vs, v.isReadonly = false := by
  have hexpr : Obeys P (expr e) fun g w v vs w' => vs = [] ∧ w' = w ∧ g.Safe w v.expr :=
    Obeys.ofGuarded (expr_sure e) fun g s₀ _ _ w =>
      (expr_guarded e).mono (fun _ hw => hw) fun _ _ hw => ⟨hw.1, hw.1 ▸ hw.2⟩
  unfold hostExpr
  refine hexpr.bindQuiet fun v => ?_
  split
  · exact Obeys.pure fun g w hsafe => ⟨rfl, ⟨_, .inr rfl, hsafe⟩, by simp⟩
  · exact Obeys.pure fun g w hsafe => ⟨rfl, ⟨_, .inl rfl, hsafe⟩, by simp⟩

theorem hostExprStmt_obeys (isLast : Bool) (e : Expr) :
    Obeys P (hostExprStmt isLast e) fun g w b vs w' => w' = w ∧
      (∃ be, (b = .expr be ∨ b = .capture be) ∧ g.Safe w be) ∧ ∀ v ∈ vs, v.isReadonly = false := by
  unfold hostExprStmt
  rcases implicitTarget? e with _ | ⟨name, value⟩
  · exact hostExpr_obeys isLast e
  · refine (isUnbound_obeys name).bindQuiet fun unbound => ?_
    split
    · refine (implicitVariable_obeys name value).mono (fun _ hs => hs) ?_
      rintro g w b vs _ ⟨rfl, ⟨be, rfl, hsafe⟩, hvs⟩ -
      exact ⟨rfl, ⟨be, .inl rfl, hsafe⟩, hvs⟩
    · exact (hostExpr_obeys isLast e).mono (fun _ hs => hs) fun _ _ _ _ _ h _ => h

theorem hostStmt_obeys (isLast : Bool) (x : Stmt) :
    Obeys P (hostStmt isLast x) fun g w bs vs w' => g.PermitsAtTop w x vs bs w' := by
  have hother : ∀ x : Stmt, (∀ span decl, x ≠ .declare span decl) → (∀ span e, x ≠ .expr span e) →
      Obeys P (do return (← Attempt.optional (stmt x)).toList) fun g w bs vs w' =>
        g.PermitsAtTop w x vs bs w' := by
    intro x hdeclare hexpr
    have hx : Obeys P (Attempt.optional (stmt x)) fun g w b? vs w' => vs = [] ∧
        Threads g.Permits w (Stmt.written [x]) b?.toList w' :=
      Obeys.ofGuarded (optionalStmt_sure (stmt_sure x)) fun g s₀ hg _ w =>
        optionalStmt_guarded (stmt_guarded hg.image x) w
    refine hx.map ?_
    rintro g w b? _ w' ⟨rfl, h⟩
    exact .other hdeclare hexpr h
  cases x with
  | declare span decl =>
    refine (hostVariables_obeys decl).mono (fun _ hs => hs) ?_
    rintro g w bs vs _ ⟨rfl, h⟩
    exact .declare h
  | expr span e =>
    refine (hostExprStmt_obeys isLast e).optional.map ?_
    rintro g w _ vs _ ⟨b, rfl, rfl, ⟨be, hb, hsafe⟩, hvs⟩
    exact .expr hb hsafe hvs
  | _ => exact hother _ (by simp) (by simp)

theorem hostStmts_obeys : ∀ (xs : List Stmt) {P : BindState → Prop},
    Obeys P (hostStmts xs) fun g w bs vs w' => g.PermitsAllAtTop w xs vs bs w'
  | [], _ => Obeys.pure fun _ _ => .nil
  | x :: rest, _ => by
    unfold hostStmts
    refine (hostStmt_obeys _ x).bind fun bound => (hostStmts_obeys rest).map ?_
    intro g w₁ more vs' w' hrest w vs hfirst
    exact .cons hfirst hrest

end Bind

namespace Session

variable {old : Session} {unit : StatementUnit} {code : Code} {b : BindState}

theorem bindStart_stands (hold : old.Valid) : old.bindStart.Stands .top := by
  have hfits := (BindState.start_at hold).fits
  have hempty : ∀ scope ∈ old.bindStart.body.scopes.all, scope.bindings = [] := by
    intro scope hscope
    obtain rfl : scope = ⟨.host, []⟩ := by
      simpa [bindStart, BindState.start, BodyContext.host, Scopes.all, Scopes.ofKind] using hscope
    rfl
  refine ⟨⟨rfl, rfl, hfits.usings, hfits.sigs, fun p hp => (by cases hp), ?_, ?_, ?_⟩,
    fun x hx => (by cases hx), rfl, rfl, rfl, ?_⟩
  · exact fun i t hi => (hfits.statics i t hi).lenient
  · exact fun hhost name v slot hv hslot =>
      ⟨⟨slot, hslot, rfl, by simp⟩, (hfits.registry hhost name v slot hv hslot).2⟩
  · exact fun scope hscope x hx => by simp [hempty scope hscope] at hx
  · exact fun scope hscope x hx => by simp [hempty scope hscope] at hx

/-- What a chunk of statements becomes is permitted by whatever guard covers the session after it. -/
theorem statementUnit_permits (hold : old.Valid)
    (run : Bind.statementUnit unit old.bindStart = (some code, b))
    (clean : b.issues.hasAny = false) {g : Guard} (hg : g.Covers b) :
    g.Covers old.bindStart ∧ ∃ w, g.PermitsAllAtTop .top unit.stmts b.newVariables code.body w := by
  have hstmts := Careful.counted (Bind.hostStmts_obeys (P := fun _ => True) unit.stmts old.bindStart) 0
  have hunit : Careful (fun s => s = old.bindStart) (Bind.statementUnit unit) fun code s =>
      ∀ g : Guard, g.Covers s → g.Covers old.bindStart ∧
        ∃ w, g.PermitsAllAtTop .top unit.stmts s.newVariables code.body w := by
    unfold Bind.statementUnit
    have hbody : Careful (fun s => s = old.bindStart) (Bind.setBody .host) fun _ s =>
        (s = old.bindStart ∧ True ∧ ∃ w, s.Stands w) ∧ s.count = 0 := by
      refine Careful.modify (fun _ => rfl) ?_
      rintro s rfl
      exact ⟨⟨rfl, trivial, _, bindStart_stands hold⟩, rfl⟩
    refine hbody.bind fun _ => hstmts.bind fun code => Bind.stopOnErrors_careful.bind fun _ => ?_
    refine Careful.bind (Q := fun _ s => ∀ g : Guard, g.Covers s → g.Covers old.bindStart ∧
      ∃ w, g.PermitsAllAtTop .top unit.stmts s.newVariables code w) (Careful.gets ?_) fun _ =>
        Careful.pure fun _ hs => hs
    rintro s ⟨⟨vs, hvs, hobeys⟩, -⟩ g hg
    obtain ⟨hstart, hpermits⟩ := hobeys g hg
    obtain ⟨w', -, hw'⟩ := hpermits _ (bindStart_stands hold)
    exact ⟨hstart, w', hvs ▸ hw'⟩
  have hends := hunit.ends _ rfl
  rw [run] at hends
  exact hends (BindState.count_eq_zero clean) g hg

end Session

end Chunkwise
