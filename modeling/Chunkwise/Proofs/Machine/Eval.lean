import Chunkwise.Proofs.Machine.Operation
import Mathlib.Data.List.Forall2

namespace Chunkwise

open Run

/-- Arguments that a method can run with. -/
structure Method.Applies (strict : Bool) (im : Image) (st : Store) (m : Method)
    (owner : Option Path) (thisObject : Option ObjectRef) (args : List Value) : Prop where
  body : m.BodyOk im owner
  concrete : m.isAbstract = false
  self : ∀ p, owner = some p → ∃ o, thisObject = some o ∧ o.type = p ∧ st.objects o.id = some p
  args : List.Forall₂ (fun v t => v.Belongs strict im st.objects t) args m.paramTypes

/-- Calls that keep the contract. -/
structure Machine.Calls.Ok (strict : Bool) (im : Image) (calls : Machine.Calls) : Prop where
  invoke : ∀ {m owner thisObject args st}, Method.Applies strict im st m owner thisObject args →
    SoundCall strict im st (calls.invoke m thisObject args)
      fun v st' => v.Belongs strict im st'.objects m.returns
  create : ∀ {p d constructor args st}, im.typeDef? p = some d → d.Instantiable →
    (∀ m, (constructor.bind fun i => d.constructors[i]?) = some m →
      List.Forall₂ (fun v t => v.Belongs strict im st.objects t) args m.paramTypes) →
    SoundCall strict im st (calls.create p constructor args)
      fun v st' => v.Belongs strict im st'.objects (.named p)

theorem forall₂_belongs_later {strict : Bool} {im : Image} {st st' : Store} {vs : List Value}
    {ts : List Ty} (h : List.Forall₂ (fun v t => v.Belongs strict im st.objects t) vs ts)
    (hl : st.Later st') : List.Forall₂ (fun v t => v.Belongs strict im st'.objects t) vs ts :=
  h.imp fun _ _ hv => hv.later hl

namespace Machine

variable {strict : Bool} {c : TypingContext} {env : Env} {calls : Calls} {st : Store} {t : Ty}

def Location.Ok (c : TypingContext) (st : Store) (t : Ty) : Location → Prop
  | .frame i => c.locals i = some t
  | .static i => c.slots i t
  | .field o i => ∃ d f, st.objects o.id = some o.type ∧ c.image.typeDef? o.type = some d ∧
      d.fields[i]? = some f ∧ f.type = t

theorem Location.Ok.later {l : Location} {st' : Store} (h : l.Ok c st t) (hl : st.Later st') :
    l.Ok c st' t := by
  cases l with
  | frame i => exact h
  | static i => exact h
  | field o i =>
    obtain ⟨d, f, ho, hd⟩ := h
    exact ⟨d, f, hl.objects _ _ ho, hd⟩

theorem load_sound {l : Location} (h : l.Ok c st t) :
    Sound strict c st (load l) fun v st' => v.Belongs strict c.image st'.objects t := by
  refine Sound.gets fun s hs hl => ?_
  cases l with
  | frame i =>
    obtain ⟨v, hv, hb⟩ := hs.locals i t h
    simpa [hv] using hb
  | static i => exact hs.store.readSlot (hs.slots i t h)
  | field o i =>
    obtain ⟨d, f, ho, hd, hf, rfl⟩ := h
    exact hs.store.readField (hl.objects _ _ ho) hd hf

/-- Setting a local that is in scope keeps every local a value of its type. -/
theorem holds_saveLocal {s : RunState} {i : Nat} {v : Value} (hs : c.Holds strict s)
    (hv : c.locals i = some t → v.Belongs strict c.image s.store.objects t)
    (hi : ∀ u, c.locals i = some u → u = t) :
    c.Holds strict
      { s with frame := { s.frame with locals := s.frame.locals.modify i fun _ => v } } := by
  refine ⟨hs.store, hs.slots, fun j u hj => ?_, hs.self⟩
  obtain ⟨w, hw, hb⟩ := hs.locals j u hj
  simp only [Array.getElem?_modify, hw]
  split
  · next hij =>
    subst hij
    obtain rfl := hi u hj
    exact ⟨v, rfl, hv hj⟩
  · exact ⟨w, rfl, hb⟩

theorem save_sound {l : Location} {v : Value} (h : l.Ok c st t)
    (hv : v.Belongs strict c.image st.objects t) :
    Sound strict c st (save l v) fun _ _ => True := by
  refine Sound.modify fun s hs hl => ?_
  cases l with
  | frame i =>
    refine ⟨holds_saveLocal (t := t) hs (fun _ => hv.later hl) fun u hu => ?_,
      ⟨.refl _, by simp, rfl, rfl⟩, trivial⟩
    simpa [hu] using (show c.locals i = some t from h)
  | static i =>
    have hlater := s.store.writeSlot_later i v
    have hok := hs.store.writeSlot (hs.slots i t h) (hv.later hl)
    exact ⟨hs.later hlater hok rfl, ⟨hlater, rfl, rfl, rfl⟩, trivial⟩
  | field o i =>
    obtain ⟨d, f, ho, hd, hf, rfl⟩ := h
    have hlater := s.store.writeField_later o.id i v
    have hok := hs.store.writeField (hl.objects _ _ ho) hd hf (hv.later hl)
    exact ⟨hs.later hlater hok rfl, ⟨hlater, rfl, rfl, rfl⟩, trivial⟩

theorem findMethod_sound {ref : MethodRef} {m : Method} (h : method? env.image ref = some m) :
    Sound strict c st (findMethod env ref) fun n _ => n = m := by
  simp only [findMethod, h]
  exact Sound.pure fun _ _ => rfl

/-- A static method that a reference means has a body that can run without an object. -/
theorem bodyOk_of_static {im : Image} (hs : im.Sound) {ref : MethodRef} {m : Method}
    (h : method? im ref = some m) (hstatic : m.isStatic = true) :
    m.BodyOk im none ∧ m.isAbstract = false := by
  cases ref with
  | helper i =>
    obtain ⟨hi, rfl⟩ := List.getElem?_eq_some_iff.mp h
    match i, hi with
    | 0, _ => exact ⟨rfl, rfl⟩
  | member p i =>
    obtain ⟨d, hd, hi⟩ := Option.bind_eq_some_iff.mp h
    have hm := List.mem_of_getElem? hi
    refine ⟨by simpa [Method.self, hstatic] using (hs.bodies p d hd).methods m hm, ?_⟩
    refine Bool.eq_false_iff.mpr fun ha => ?_
    have := ((hs.sigs p d hd).abstracts m hm ha).2
    simp [hstatic] at this

/-- What evaluating typed code relies on. -/
structure Ready (strict : Bool) (im : Image) (env : Env) (calls : Calls) : Prop where
  image : env.image = im
  sound : im.Sound
  covered : im.Covered
  calls : calls.Ok strict im

/-- An object behind an interface has the method that a member stands for. -/
theorem findImplementation_sound (h : Ready strict c.image env calls) {p : Path} {d : TypeDef}
    {wanted : Method} {o : ObjectRef} (hd : c.image.typeDef? p = some d)
    (hm : wanted ∈ d.methods) (hr : c.image.Reaches o.type p)
    (ho : st.objects o.id = some o.type) :
    Sound strict c st (findImplementation env o wanted) fun m _ =>
      m.BodyOk c.image (some o.type) ∧ m.isAbstract = false ∧ m.paramTypes = wanted.paramTypes ∧
        m.returns = wanted.returns := by
  refine Sound.fromStore fun st' hl hok => ?_
  obtain ⟨e, he, hi⟩ := hok.instantiable (hl.objects _ _ ho)
  have hhas := h.covered o.type e he hi p d hr hd wanted hm
  obtain ⟨m, hfound, hans⟩ :=
    (TypeDef.implementation?_iff (h.sound.sigs _ e he) hi).mpr hhas
  simp only [findImplementation, h.image, he, Option.bind_some, hfound]
  refine Sound.pure fun _ _ => ⟨?_, hans.concrete, hans.params, hans.returns⟩
  simpa [Method.self, hans.ofObject] using (h.sound.bodies _ e he).methods m hans.mem

section Receivers

variable {p : Path} {d : TypeDef} {v : Value}

theorem receiver_sound {k : TypeKind} (hp : c.image.kind? p = some k) (hk : k ≠ .enumKind)
    (hv : v.Belongs strict c.image st.objects (.named p)) :
    Sound strict c st (Run.ofExcept (receiver v)) fun o st' =>
      o.value.Conforms c.image st'.objects (.named p) :=
  Sound.ofExcept fun _ hl => receiver_meets hp hk (hv.later hl)

/-- A value of a type that has objects is an object of just that type. -/
theorem ownReceiver_sound (hd : c.image.typeDef? p = some d) (ho : d.hasObjects = true)
    (hv : v.Belongs strict c.image st.objects (.named p)) :
    Sound strict c st (Run.ofExcept (receiver v)) fun o st' => o.type = p ∧ st'.objects o.id = some p := by
  have hk : d.kind ≠ .enumKind := by
    rintro hk
    simp [TypeDef.hasObjects, hk] at ho
  exact (receiver_sound (Image.kind?_eq hd) hk hv).mono fun o _ _ hobj => object_of_conforms hd ho hobj

theorem interfaceReceiver_sound (hd : c.image.typeDef? p = some d) (hk : d.kind = .interfaceKind)
    (hv : v.Belongs strict c.image st.objects (.named p)) :
    Sound strict c st (Run.ofExcept (receiver v)) fun o st' =>
      st'.objects o.id = some o.type ∧ c.image.Reaches o.type p := by
  have hkind := (Image.kind?_eq hd).trans (congrArg some hk)
  exact (receiver_sound hkind (by simp) hv).mono fun o _ _ hobj => object_of_interface hkind hobj

end Receivers

section Calls

variable {p : Path} {d : TypeDef} {i : Nat} {m : Method} {o : ObjectRef} {vs : List Value}

theorem invokeStatic_sound (h : Ready strict c.image env calls) {ref : MethodRef}
    (hm : method? c.image ref = some m) (hs : m.isStatic = true)
    (hvs : List.Forall₂ (fun v t => v.Belongs strict c.image st.objects t) vs m.paramTypes) :
    Sound strict c st (do calls.invoke (← findMethod env ref) none vs) fun v st' =>
      v.Belongs strict c.image st'.objects m.returns := by
  refine (findMethod_sound (h.image ▸ hm)).bind fun n _ hl hn => ?_
  subst hn
  obtain ⟨hbody, hconcrete⟩ := bodyOk_of_static h.sound hm hs
  exact (h.calls.invoke ⟨hbody, hconcrete, by simp, forall₂_belongs_later hvs hl⟩).sound

theorem findMember_sound (h : Ready strict c.image env calls) (hd : c.image.typeDef? p = some d)
    (hm : d.methods[i]? = some m) :
    Sound strict c st (findMethod env (.member p i)) fun n _ => n = m :=
  findMethod_sound (by simp [method?, h.image, hd, hm])

/-- The methods of an object's own type have bodies, since only types without open methods have objects. -/
theorem invokeDirect_sound (h : Ready strict c.image env calls) (hd : c.image.typeDef? p = some d)
    (hm : d.methods[i]? = some m) (hs : m.isStatic = false) (hp : o.type = p)
    (hid : st.objects o.id = some p)
    (hvs : List.Forall₂ (fun v t => v.Belongs strict c.image st.objects t) vs m.paramTypes) :
    Sound strict c st (do calls.invoke (← findMethod env (.member p i)) (some o) vs) fun v st' =>
      v.Belongs strict c.image st'.objects m.returns := by
  refine (findMember_sound h hd hm).bind fun n _ h₁ hn => ?_
  subst hn
  refine Sound.fromStore fun st' h₂ hok => ?_
  have hid' := h₂.objects _ _ (h₁.objects _ _ hid)
  obtain ⟨d', hd', hi⟩ := hok.instantiable hid'
  obtain rfl : d = d' := by simpa [hd] using hd'
  have hmem := List.mem_of_getElem? hm
  have hbody := (h.sound.bodies p d hd).methods n hmem
  simp only [Method.self, hs] at hbody
  have hself : ∀ q, some p = some q → ∃ o', some o = some o' ∧ o'.type = q ∧
      st'.objects o'.id = some q := by
    rintro q hq
    cases hq
    exact ⟨o, rfl, hp, hid'⟩
  exact (h.calls.invoke ⟨hbody, hi.concrete (h.sound.sigs p d hd) hmem, hself,
    forall₂_belongs_later hvs (h₁.trans h₂)⟩).sound

/-- The method that runs is the one of the object's type, which stands for the member of the interface. -/
theorem invokeVirtual_sound (h : Ready strict c.image env calls) (hd : c.image.typeDef? p = some d)
    (hm : d.methods[i]? = some m) (hid : st.objects o.id = some o.type) (hr : c.image.Reaches o.type p)
    (hvs : List.Forall₂ (fun v t => v.Belongs strict c.image st.objects t) vs m.paramTypes) :
    Sound strict c st (do
      let target ← findImplementation env o (← findMethod env (.member p i))
      calls.invoke target (some o) vs) fun v st' => v.Belongs strict c.image st'.objects m.returns := by
  refine (findMember_sound h hd hm).bind fun n _ h₁ hn => ?_
  subst hn
  have hid' := h₁.objects _ _ hid
  refine (findImplementation_sound h hd (List.mem_of_getElem? hm) hr hid').bind
    fun target st' h₂ ⟨hbody, hconcrete, hparams, hreturns⟩ => ?_
  have hself : ∀ q, some o.type = some q → ∃ o', some o = some o' ∧ o'.type = q ∧
      st'.objects o'.id = some q := by
    rintro q hq
    cases hq
    exact ⟨o, rfl, rfl, h₂.objects _ _ hid'⟩
  rw [← hreturns]
  refine (h.calls.invoke ⟨hbody, hconcrete, hself, ?_⟩).sound
  rw [hparams]
  exact forall₂_belongs_later hvs (h₁.trans h₂)

end Calls

/-- A value computed for a location is saved there, and the expression has that value or another one. -/
theorem saveResult_sound {l : Location} {r : Except Stop Value} {f : Value → Value} (hl : l.Ok c st t)
    (hr : ∀ st', st.Later st' → Meets strict r fun v => v.Belongs strict c.image st'.objects t)
    (hf : ∀ v st', st.Later st' → v.Belongs strict c.image st'.objects t →
      (f v).Belongs strict c.image st'.objects t) :
    Sound strict c st (do
      let new ← Run.ofExcept r
      save l new
      return f new) fun v st' => v.Belongs strict c.image st'.objects t := by
  refine (Sound.ofExcept (Q := fun v st' => v.Belongs strict c.image st'.objects t) hr).bind
    fun new _ h₁ hnew => ?_
  refine (save_sound (hl.later h₁) hnew).bind fun _ _ h₂ _ => ?_
  exact Sound.pure fun _ h₃ => hf _ _ ((h₁.trans h₂).trans h₃) ((hnew.later h₂).later h₃)

mutual

theorem eval_sound (h : Ready strict c.image env calls) : ∀ {e : BoundExpr} {t : Ty} {st : Store},
    e.HasType c t →
    Sound strict c st (eval env calls e) fun v st' => v.Belongs strict c.image st'.objects t
  | .const v, t, _, he => by
    rw [eval]
    exact Sound.pure fun _ _ => .inl (he.1.more (by simp))
  | .load p, t, _, he => by
    rw [eval]
    exact (locate_sound h he).bind fun l _ _ hl => load_sound hl
  | .thisRef, t, _, ⟨p, hp, ht⟩ => by
    rw [eval, ht]
    refine Sound.gets fun s hs _ => ?_
    obtain ⟨o, hthis, hp, hid⟩ := hs.self p hp
    obtain ⟨d, hd, hi⟩ := hs.store.instantiable hid
    simp only [hthis]
    exact .inl (conforms_object hd hi.1 hp hid)
  | .assign p e, t, _, ⟨hp, u, he, hu⟩ => by
    rw [eval]
    refine (locate_sound h hp).bind fun l _ _ hl => ?_
    refine (eval_sound h he).bind fun v _ hlater hv => ?_
    have hv' := hv.passes h.sound hu
    refine (save_sound (hl.later hlater) hv').bind fun _ _ hlater' _ => ?_
    exact Sound.pure fun _ hlater'' => (hv'.later hlater').later hlater''
  | .compound p op e, t, _, ⟨hp, u, he, hop⟩ => by
    rw [eval]
    refine (locate_sound h hp).bind fun l _ _ hl => ?_
    refine (load_sound hl).bind fun old _ h₁ hold => ?_
    refine (eval_sound h he).bind fun v _ h₂ hv => ?_
    refine saveResult_sound ((hl.later h₁).later h₂) (fun _ h₃ => ?_) fun _ _ _ => id
    exact apply_meets hop ((hold.later h₂).later h₃) (hv.later h₃) _
  | .step p op leading kind, t, _, ⟨hp, hk⟩ => by
    rw [eval]
    refine (locate_sound h hp).bind fun l _ _ hl => ?_
    refine (load_sound hl).bind fun old _ h₁ hold => ?_
    refine saveResult_sound (hl.later h₁) (fun _ h₂ => stepValue_meets hk (hold.later h₂))
      fun new _ h₂ hnew => ?_
    split
    · exact hnew
    · exact hold.later h₂
  | .neg kind e, t, _, ⟨he, hk⟩ => by
    rw [eval]
    refine (eval_sound h he).bind fun v _ _ hv => ?_
    exact Sound.ofExcept fun _ hl => negate_meets hk (hv.later hl)
  | .not e, t, _, ⟨he, ht⟩ => by
    rw [eval, ht]
    exact (eval_sound h he).bind fun v _ _ _ => Sound.pure fun _ _ => belongs_bool _
  | .binary op l r, t, _, ⟨a, b, hl, hr, hop⟩ => by
    rw [eval]
    refine (eval_sound h hl).bind fun v _ _ hv => ?_
    refine (eval_sound h hr).bind fun w _ h₁ hw => ?_
    exact Sound.ofExcept fun _ h₂ => apply_meets hop ((hv.later h₁).later h₂) (hw.later h₂) _
  | .both l r, t, _, ⟨hl, hr, ht⟩ => by
    rw [eval, ht]
    refine (eval_sound h hl).bind fun v _ _ _ => ?_
    split
    · exact (eval_sound h hr).bind fun w _ _ _ => Sound.pure fun _ _ => belongs_bool _
    · exact Sound.pure fun _ _ => belongs_bool _
  | .either l r, t, _, ⟨hl, hr, ht⟩ => by
    rw [eval, ht]
    refine (eval_sound h hl).bind fun v _ _ _ => ?_
    split
    · exact Sound.pure fun _ _ => belongs_bool _
    · exact (eval_sound h hr).bind fun w _ _ _ => Sound.pure fun _ _ => belongs_bool _
  | .coalesce l r, t, _, ⟨⟨a, hl, ha⟩, b, hr, hb⟩ => by
    rw [eval]
    refine (eval_sound h hl).bind fun v _ _ hv => ?_
    split
    · exact (eval_sound h hr).mono fun w _ _ hw => hw.passes h.sound hb
    · exact Sound.pure fun _ h₁ => (hv.later h₁).passes h.sound ha
  | .cond e l r, t, _, ⟨he, ⟨a, hl, ha⟩, b, hr, hb⟩ => by
    rw [eval]
    refine (eval_sound h he).bind fun v _ _ _ => ?_
    split
    · exact (eval_sound h hl).mono fun w _ _ hw => hw.passes h.sound ha
    · exact (eval_sound h hr).mono fun w _ _ hw => hw.passes h.sound hb
  | .callStatic ref args, t, _, ⟨m, hm, hs, hargs, ht⟩ => by
    rw [eval, ht]
    exact (evalAll_sound h hargs).bind fun vs _ _ hvs => invokeStatic_sound h hm hs hvs
  | .callDirect target ref args, t, _, ⟨p, d, i, m, href, he, hd, ho, hm, hs, hargs, ht⟩ => by
    rw [eval, ht, href]
    refine (eval_sound h he).bind fun v _ _ hv => ?_
    refine (ownReceiver_sound hd ho hv).bind fun o _ _ ⟨hp, hid⟩ => ?_
    refine (evalAll_sound h hargs).bind fun vs _ hl hvs => ?_
    exact invokeDirect_sound h hd hm hs hp (hl.objects _ _ hid) hvs
  | .callVirtual target ref args, t, _, ⟨p, d, i, m, href, he, hd, hk, hm, hargs, ht⟩ => by
    rw [eval, ht, href]
    refine (eval_sound h he).bind fun v _ _ hv => ?_
    refine (interfaceReceiver_sound hd hk hv).bind fun o _ _ ⟨hid, hr⟩ => ?_
    refine (evalAll_sound h hargs).bind fun vs _ hl hvs => ?_
    exact invokeVirtual_sound h hd hm (hl.objects _ _ hid) hr hvs
  | .new p none args, t, _, ⟨ht, hargs, d, hd, hi⟩ => by
    rw [eval, ht]
    have hfit : BoundExpr.Fit c args [] := by
      rw [hargs]
      trivial
    refine (evalAll_sound h hfit).bind fun vs _ _ _ => ?_
    exact (h.calls.create hd hi (by simp)).sound
  | .new p (some i) args, t, _, ⟨ht, d, m, hd, hi, hm, hargs⟩ => by
    rw [eval, ht]
    refine (evalAll_sound h hargs).bind fun vs _ _ hvs => ?_
    refine (h.calls.create hd hi fun n hn => ?_).sound
    obtain rfl : m = n := by simpa [hm] using hn
    exact hvs
  | .toText e, t, _, ⟨⟨u, he⟩, ht⟩ => by
    rw [eval, ht]
    refine (eval_sound h he).bind fun v _ _ _ => ?_
    exact Sound.ofExcept fun _ _ => toText_meets _ _
  | .textLength e, t, _, ⟨he, ht⟩ => by
    rw [eval, ht]
    refine (eval_sound h he).bind fun v _ _ hv => ?_
    exact Sound.ofExcept fun _ hl => textLength_meets (hv.later hl)
  | .widen e, t, _, ⟨⟨u, he, hu⟩, ht⟩ => by
    rw [eval, ht]
    refine (eval_sound h he).bind fun v _ _ hv => ?_
    exact Sound.pure fun _ hl => widen_belongs hu (hv.later hl)

theorem evalAll_sound (h : Ready strict c.image env calls) :
    ∀ {es : List BoundExpr} {ts : List Ty} {st : Store}, BoundExpr.Fit c es ts →
    Sound strict c st (evalAll env calls es) fun vs st' =>
      List.Forall₂ (fun v t => v.Belongs strict c.image st'.objects t) vs ts
  | [], [], _, _ => by
    rw [evalAll]
    exact Sound.pure fun _ _ => .nil
  | e :: es, t :: ts, _, ⟨⟨u, he, hu⟩, hes⟩ => by
    rw [evalAll]
    refine (eval_sound h he).bind fun v _ _ hv => ?_
    refine (evalAll_sound h hes).bind fun vs _ h₁ hvs => ?_
    refine Sound.pure fun _ h₂ => .cons ?_ (forall₂_belongs_later hvs h₂)
    exact ((hv.later h₁).later h₂).passes h.sound hu
  | [], _ :: _, _, hf | _ :: _, [], _, hf => hf.elim

theorem locate_sound (h : Ready strict c.image env calls) : ∀ {p : Place} {t : Ty} {st : Store},
    p.HasType c t → Sound strict c st (locate env calls p) fun l st' => l.Ok c st' t
  | .frame i, t, _, hp => by
    rw [locate]
    exact Sound.pure fun _ _ => hp
  | .static i, t, _, hp => by
    rw [locate]
    exact Sound.pure fun _ _ => hp
  | .field target i, t, _, ⟨p, d, f, he, hd, ho, hf, ht⟩ => by
    rw [locate]
    refine (eval_sound h he).bind fun v _ _ hv => ?_
    refine (ownReceiver_sound hd ho hv).bind fun o _ _ ⟨hp, hid⟩ => ?_
    subst hp
    exact Sound.pure fun _ hl => ⟨d, f, hl.objects _ _ hid, hd, hf, ht⟩

end

theorem fit_of_hasType : ∀ {es : List BoundExpr}, (∀ e ∈ es, ∃ t, e.HasType c t) →
    ∃ ts, BoundExpr.Fit c es ts
  | [], _ => ⟨[], trivial⟩
  | e :: es, h => by
    obtain ⟨t, he⟩ := h e (by simp)
    obtain ⟨ts, hes⟩ := fit_of_hasType fun x hx => h x (List.mem_cons_of_mem e hx)
    exact ⟨t :: ts, ⟨t, he, .inl rfl⟩, hes⟩

end Machine

end Chunkwise
