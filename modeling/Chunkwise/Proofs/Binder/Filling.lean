import Chunkwise.Binder.Bodies
import Chunkwise.Proofs.Binder.Ongoing

/-!
While bodies are filled in, types keep their signatures, so the image only grows. `Awaits` says
which methods of a definition are still without a body: those on the lists, or any once there are
issues. `Filling` is what every step keeps for the type at hand.
-/
namespace Chunkwise

namespace Method

variable {m n : Method}

theorem params_of_erased (h : m.erased = n.erased) : m.params = n.params := by
  simpa using congrArg Method.params h

theorem isAbstract_of_erased (h : m.erased = n.erased) : m.isAbstract = n.isAbstract := by
  simpa using congrArg Method.isAbstract h

theorem SigOk.of_erased {im : Image} (h : n.SigOk im) (he : m.erased = n.erased) : m.SigOk im where
  params := by
    rw [paramTypes_of_erased he]
    exact h.params
  names := by
    rw [params_of_erased he]
    exact h.names
  returns := by
    rw [returns_of_erased he]
    exact h.returns

theorem erased_withCode (code : Code) (h : m.isAbstract = false) :
    ({ m with body := .code code } : Method).erased = m.erased := by
  simp only [erased, h]
  rfl

end Method

namespace TypeDef

variable {d d' : TypeDef}

theorem methods_of_erased (h : d'.erased = d.erased) :
    d'.methods.map Method.erased = d.methods.map Method.erased := congrArg TypeDef.methods h

theorem constructors_of_erased (h : d'.erased = d.erased) :
    d'.constructors.map Method.erased = d.constructors.map Method.erased :=
  congrArg TypeDef.constructors h

theorem mem_of_erased {ms ms' : List Method} (h : ms'.map Method.erased = ms.map Method.erased)
    {m : Method} (hm : m ∈ ms') : ∃ n ∈ ms, m.erased = n.erased := by
  have hin : m.erased ∈ ms.map Method.erased := h ▸ List.mem_map_of_mem hm
  obtain ⟨n, hn, heq⟩ := List.mem_map.mp hin
  exact ⟨n, hn, heq.symm⟩

theorem SameHead.of_erased (h : d'.erased = d.erased) : d'.SameHead d :=
  ⟨by simpa using congrArg TypeDef.kind h, by simpa using congrArg TypeDef.isStatic h,
    by simpa using congrArg TypeDef.isAbstract h⟩

theorem SigOk.of_erased {im : Image} (h : d.SigOk im) (he : d'.erased = d.erased) : d'.SigOk im := by
  have hhead := SameHead.of_erased he
  have hmembers : d'.enumMembers = d.enumMembers := by simpa using congrArg TypeDef.enumMembers he
  refine ⟨?_, ?_, ?_, ?_, ?_, fun m hm => ?_, fun m hm => ?_, fun m hm ha => ?_, ?_⟩
  · rw [interfaces_of_erased he]
    exact h.interfaces
  · rw [hhead.kind, interfaces_of_erased he]
    exact h.enums
  · rw [hhead.kind, hmembers]
    exact h.enumMembers
  · rw [statics_of_erased he]
    exact h.statics
  · rw [fields_of_erased he]
    exact h.fields
  · obtain ⟨n, hn, hmn⟩ := mem_of_erased (methods_of_erased he) hm
    exact (h.methods n hn).of_erased hmn
  · obtain ⟨n, hn, hmn⟩ := mem_of_erased (constructors_of_erased he) hm
    obtain ⟨hsig, hreturns, habstract⟩ := h.constructors n hn
    exact ⟨hsig.of_erased hmn, (Method.returns_of_erased hmn).trans hreturns,
      (Method.isAbstract_of_erased hmn).trans habstract⟩
  · obtain ⟨n, hn, hmn⟩ := mem_of_erased (methods_of_erased he) hm
    have := h.abstracts n hn ((Method.isAbstract_of_erased hmn).symm.trans ha)
    exact ⟨hhead.isAbstract.trans this.1, (Method.isStatic_of_erased hmn).trans this.2⟩
  · have hsame : ∀ m n : Method, m.erased.sameSignature n.erased = m.sameSignature n :=
      fun _ _ => rfl
    have hd : (d.methods.map Method.erased).Pairwise fun m n => m.sameSignature n = false :=
      List.pairwise_map.mpr (by simpa only [hsame] using h.distinct)
    rw [← methods_of_erased he] at hd
    simpa only [hsame] using List.pairwise_map.mp hd

end TypeDef

theorem Bind.isImplemented_of_erased {d d' : TypeDef} {m m' : Method} (hd : d'.erased = d.erased)
    (hm : m'.erased = m.erased) (h : isImplemented d m = true) : isImplemented d' m' = true := by
  rw [isImplemented_iff] at h ⊢
  obtain ⟨n, hn, hs, hsig, hr⟩ := h
  obtain ⟨n', hn', heq⟩ := TypeDef.mem_of_erased (TypeDef.methods_of_erased hd).symm hn
  refine ⟨n', hn', (Method.isStatic_of_erased heq).symm.trans hs, ?_, ?_⟩
  · change n'.erased.sameSignature m'.erased = true
    rw [← heq, hm]
    exact hsig
  · rw [← Method.returns_of_erased heq, hr, Method.returns_of_erased hm]

theorem Image.Conforming.grow {im im' : Image} {d d' : TypeDef} (h : im.Conforming d)
    (hsig : d.SigOk im) (hg : im.Grows im') (hd : d'.erased = d.erased) : im'.Conforming d' := by
  intro ho q hq e' he' m' hm'
  rw [TypeDef.interfaces_of_erased hd] at hq
  obtain ⟨e, he, -⟩ := Option.map_eq_some_iff.mp (hsig.interfaces q hq)
  obtain ⟨e'', he'', heq⟩ := hg q e he
  obtain rfl : e' = e'' := by simpa [he'] using he''
  obtain ⟨m, hm, hmm⟩ := TypeDef.mem_of_erased (TypeDef.methods_of_erased heq) hm'
  exact Bind.isImplemented_of_erased hd hmm
    (h ((TypeDef.hasObjects_of_erased hd).symm.trans ho) q hq e he m hm)

/-- Every body is typed or still to come: it is on the list, or there are issues. -/
structure TypeDef.Awaits (d : TypeDef) (im : Image) (p : Path) (issues : Prop)
    (ms : List (MethodDecl × Nat)) (cs : List (ConstructorDecl × Nat)) : Prop where
  methods : ∀ (i : Nat) (m : Method), d.methods[i]? = some m → m.BodyOk im (m.self p) ∨
    m.body = .missing ∧ (issues ∨ ∃ decl, (decl, i) ∈ ms ∧ decl.body.isSome = true)
  listed : ∀ x ∈ ms, x.1.body.isSome = true → ∀ m, d.methods[x.2]? = some m →
    m.isAbstract = false
  constructors : ∀ (i : Nat) (m : Method), d.constructors[i]? = some m → m.BodyOk im (some p) ∨
    m.body = .missing ∧ (issues ∨ ∃ decl, (decl, i) ∈ cs)
  inits : ∀ x ∈ d.inits, ∃ f, d.fields[x.1]? = some f ∧
    x.2.Fits ⟨im, im.StaticSlot, .none, some p⟩ f.type

namespace TypeDef

variable {d : TypeDef} {im im' : Image} {p : Path} {issues issues' : Prop}
  {ms : List (MethodDecl × Nat)} {cs : List (ConstructorDecl × Nat)}

theorem Lacks.awaits (h : d.Lacks ms cs) :
    d.Awaits im p issues ms cs where
  methods i m hm := by
    rcases h.methods i m hm with hb | ⟨hb, -, hlisted⟩
    · exact .inl (by simp [Method.BodyOk, hb])
    · exact .inr ⟨hb, .inr hlisted⟩
  listed x hx hsome m hm := by
    obtain ⟨n, hn, hconcrete⟩ := h.listed x hx
    obtain rfl : m = n := by simpa [hm] using hn
    exact hconcrete hsome
  constructors i m hm := .inr ⟨(h.constructors i m hm).1, .inr (h.constructors i m hm).2.2⟩
  inits x hx := by
    rw [h.inits] at hx
    cases hx

theorem Lacks.bodiesOk (h : d.Lacks ms cs) (hno : d.hasObjects = false) :
    d.BodiesOk im p where
  methods m hm := by
    obtain ⟨i, hi⟩ := List.mem_iff_getElem?.mp hm
    rcases h.methods i m hi with hb | ⟨-, ho, -⟩
    · simp [Method.BodyOk, hb]
    · simp [hno] at ho
  constructors m hm := by
    obtain ⟨i, hi⟩ := List.mem_iff_getElem?.mp hm
    have := (h.constructors i m hi).2.1
    simp [hno] at this
  inits x hx := by
    rw [h.inits] at hx
    cases hx

namespace Awaits

theorem grow (h : d.Awaits im p issues ms cs) (hg : im.Grows im')
    (hissues : issues → issues') : d.Awaits im' p issues' ms cs where
  methods i m hm := (h.methods i m hm).imp (fun hb => hb.grow hg)
    fun hb => ⟨hb.1, hb.2.imp_left hissues⟩
  listed := h.listed
  constructors i m hm := (h.constructors i m hm).imp (fun hb => hb.grow hg)
    fun hb => ⟨hb.1, hb.2.imp_left hissues⟩
  inits x hx := by
    obtain ⟨f, hf, he⟩ := h.inits x hx
    refine ⟨f, hf, BoundExpr.Fits.weaken ?_ he⟩
    exact ⟨hg, .refl _, rfl, fun _ _ _ hs => hg.staticSlot hs⟩

theorem bodiesOk (h : d.Awaits im p issues [] []) (hissues : ¬ issues) : d.BodiesOk im p where
  methods m hm := by
    obtain ⟨i, hi⟩ := List.mem_iff_getElem?.mp hm
    rcases h.methods i m hi with hb | ⟨-, hi | ⟨_, hin, -⟩⟩
    · exact hb
    · exact absurd hi hissues
    · cases hin
  constructors m hm := by
    obtain ⟨i, hi⟩ := List.mem_iff_getElem?.mp hm
    rcases h.constructors i m hi with hb | ⟨-, hi | ⟨_, hin⟩⟩
    · exact hb
    · exact absurd hi hissues
    · cases hin
  inits := h.inits

/-- The first body on the list needs no waiting for if it is there, if it cannot be there or if
there are issues. -/
theorem skipMethod {x : MethodDecl × Nat} (h : d.Awaits im p issues (x :: ms) cs)
    (hx : issues ∨ x.1.body.isSome = false ∨
      ∀ m, d.methods[x.2]? = some m → m.body ≠ .missing) :
    d.Awaits im p issues ms cs where
  methods i m hm := by
    rcases h.methods i m hm with hb | ⟨hb, hi | ⟨decl, hin, hsome⟩⟩
    · exact .inl hb
    · exact .inr ⟨hb, .inl hi⟩
    · rcases List.mem_cons.mp hin with rfl | hin
      · rcases hx with hi | hnone | hthere
        · exact .inr ⟨hb, .inl hi⟩
        · rw [hsome] at hnone
          cases hnone
        · exact absurd hb (hthere m hm)
      · exact .inr ⟨hb, .inr ⟨decl, hin, hsome⟩⟩
  listed y hy := h.listed y (List.mem_cons_of_mem _ hy)
  constructors := h.constructors
  inits := h.inits

theorem skipConstructor {x : ConstructorDecl × Nat}
    (h : d.Awaits im p issues ms (x :: cs))
    (hx : issues ∨ ∀ m, d.constructors[x.2]? = some m → m.body ≠ .missing) :
    d.Awaits im p issues ms cs where
  methods := h.methods
  listed := h.listed
  constructors i m hm := by
    rcases h.constructors i m hm with hb | ⟨hb, hi | ⟨decl, hin⟩⟩
    · exact .inl hb
    · exact .inr ⟨hb, .inl hi⟩
    · rcases List.mem_cons.mp hin with rfl | hin
      · rcases hx with hi | hthere
        · exact .inr ⟨hb, .inl hi⟩
        · exact absurd hb (hthere m hm)
      · exact .inr ⟨hb, .inr ⟨decl, hin⟩⟩
  inits := h.inits

end Awaits

end TypeDef

namespace Bind

variable {ms : List Method} {i : Nat} {code : Code}

theorem withBody_getElem? (ms : List Method) (i : Nat) (code : Code) (j : Nat) :
    (withBody ms i code)[j]? =
      if i = j then (ms[j]?).map fun m => { m with body := .code code } else ms[j]? := by
  unfold withBody
  rw [List.getElem?_modify]
  split <;> simp

theorem withBody_erased (h : ∀ m, ms[i]? = some m → m.isAbstract = false) :
    (withBody ms i code).map Method.erased = ms.map Method.erased := by
  ext1 j
  rw [List.getElem?_map, List.getElem?_map, withBody_getElem?]
  split
  · next hij =>
    subst hij
    cases hm : ms[i]? with
    | none => rfl
    | some m => exact congrArg some (Method.erased_withCode code (h m hm))
  · rfl

end Bind

theorem TypeDef.erased_withMethod {d : TypeDef} {i : Nat} (code : Code)
    (h : ∀ m, d.methods[i]? = some m → m.isAbstract = false) :
    ({ d with methods := Bind.withBody d.methods i code } : TypeDef).erased = d.erased := by
  simp only [erased, Bind.withBody_erased h]

theorem TypeDef.erased_withConstructor {d : TypeDef} {i : Nat} (code : Code)
    (h : ∀ m, d.constructors[i]? = some m → m.isAbstract = false) :
    ({ d with constructors := Bind.withBody d.constructors i code } : TypeDef).erased =
      d.erased := by
  simp only [erased, Bind.withBody_erased h]

namespace TypeDef.Awaits

open Chunkwise.Bind

variable {d : TypeDef} {im : Image} {p : Path} {issues : Prop}
  {ms : List (MethodDecl × Nat)} {cs : List (ConstructorDecl × Nat)} {code : Code} {m : Method}

theorem fillMethod {x : MethodDecl × Nat} (h : d.Awaits im p issues (x :: ms) cs)
    (hm : d.methods[x.2]? = some m)
    (hcode : code.WellTyped im (m.self p) m.paramTypes m.returns) :
    ({ d with methods := withBody d.methods x.2 code } : TypeDef).Awaits im p issues ms cs := by
  have hrest : ({ d with methods := withBody d.methods x.2 code } : TypeDef).Awaits im p issues
      (x :: ms) cs := by
    refine ⟨fun j n hn => ?_, fun y hy hsome n hn => ?_, h.constructors, h.inits⟩
    · simp only [withBody_getElem?] at hn
      split at hn
      · next hij =>
        rw [← hij, hm] at hn
        cases hn
        exact .inl hcode
      · exact h.methods j n hn
    · simp only [withBody_getElem?] at hn
      split at hn
      · obtain ⟨k, -, rfl⟩ := Option.map_eq_some_iff.mp hn
        rfl
      · exact h.listed y hy hsome n hn
  refine hrest.skipMethod (.inr (.inr fun n hn => ?_))
  simp only [withBody_getElem?, if_pos, hm, Option.map_some] at hn
  cases hn
  simp

theorem fillConstructor {x : ConstructorDecl × Nat} (h : d.Awaits im p issues ms (x :: cs))
    (hm : d.constructors[x.2]? = some m)
    (hcode : code.WellTyped im (some p) m.paramTypes m.returns) :
    ({ d with constructors := withBody d.constructors x.2 code } : TypeDef).Awaits im p issues
      ms cs := by
  have hrest : ({ d with constructors := withBody d.constructors x.2 code } : TypeDef).Awaits im p
      issues ms (x :: cs) := by
    refine ⟨h.methods, h.listed, fun j n hn => ?_, h.inits⟩
    simp only [withBody_getElem?] at hn
    split at hn
    · next hij =>
      rw [← hij, hm] at hn
      cases hn
      exact .inl hcode
    · exact h.constructors j n hn
  refine hrest.skipConstructor (.inr fun n hn => ?_)
  simp only [withBody_getElem?, if_pos, hm, Option.map_some] at hn
  cases hn
  simp

end TypeDef.Awaits

/-- The bodies of the type at hand are filled in; the other types are what they were. -/
structure BindState.Filling (old : Session) (ds : List DeclaredType) (s s₀ : BindState)
    (x : DeclaredType) (ms : List (MethodDecl × Nat)) (cs : List (ConstructorDecl × Nat)) :
    Prop where
  ongoing : s.Ongoing old ds
  stays : s₀.Stays s
  grows : s₀.image.Grows s.image
  frame : ∀ q, q ≠ x.path → s.image.typeDef? q = s₀.image.typeDef? q
  issues : s₀.issues.hasAny = true → s.issues.hasAny = true
  awaits : ∃ d, s.image.typeDef? x.path = some d ∧ d.hasObjects = true ∧
    d.Awaits s.image x.path (s.issues.hasAny = true) ms cs

namespace BindState.Filling

variable {old : Session} {ds : List DeclaredType} {s s₀ s' : BindState} {x : DeclaredType}
  {ms ms' : List (MethodDecl × Nat)} {cs cs' : List (ConstructorDecl × Nat)}

theorem aside (h : s.Filling old ds s₀ x ms cs) (ha : s.Aside s') :
    s'.Filling old ds s₀ x ms cs where
  ongoing := h.ongoing.aside ha
  stays := h.stays.aside ha
  grows := ha.image ▸ h.grows
  frame := by
    rw [ha.image]
    exact h.frame
  issues hi := ha.issues (h.issues hi)
  awaits := by
    obtain ⟨d, hd, ho, hawaits⟩ := h.awaits
    rw [ha.image]
    exact ⟨d, hd, ho, hawaits.grow (.refl _) ha.issues⟩

theorem waitFor (h : s.Filling old ds s₀ x ms cs)
    (ha : ∀ d, s.image.typeDef? x.path = some d →
      d.Awaits s.image x.path (s.issues.hasAny = true) ms cs →
      d.Awaits s.image x.path (s.issues.hasAny = true) ms' cs') :
    s.Filling old ds s₀ x ms' cs' := by
  obtain ⟨d, hd, ho, hawaits⟩ := h.awaits
  exact ⟨h.ongoing, h.stays, h.grows, h.frame, h.issues, d, hd, ho, ha d hd hawaits⟩

theorem update (h : s.Filling old ds s₀ x ms cs) (hx : x ∈ ds) {f : TypeDef → TypeDef}
    (hf : ∀ d, s.image.typeDef? x.path = some d → d.SigOk s.image →
      d.Awaits s.image x.path (s.issues.hasAny = true) ms cs →
      (f d).erased = d.erased ∧
        (f d).Awaits s.image x.path (s.issues.hasAny = true) ms' cs') :
    ({ s with image := s.image.updateType x.path f } : BindState).Filling old ds s₀ x ms' cs' := by
  obtain ⟨d, hd, ho, hawaits⟩ := h.awaits
  have hsig := h.ongoing.sigs _ d hd
  obtain ⟨herased, hawaits'⟩ := hf d hd hsig hawaits
  have hgrows : s.image.Grows (s.image.updateType x.path f) :=
    Image.grows_updateType _ _ fun e he => by
      obtain rfl : d = e := by simpa [hd] using he
      exact herased
  refine ⟨h.ongoing.update hx hd (.of_erased herased) (hsig.of_erased herased) fun g hg => ?_,
    h.stays.update _ _, h.grows.trans hgrows, fun q hq => ?_, h.issues, f d, ?_, ?_,
    hawaits'.grow hgrows id⟩
  · rw [TypeDef.statics_of_erased herased] at hg
    exact .inl hg
  · rw [Image.typeDef?_updateType, if_neg hq]
    exact h.frame q hq
  · rw [Image.typeDef?_updateType, if_pos rfl, hd]
    rfl
  · exact (TypeDef.hasObjects_of_erased herased).trans ho

end BindState.Filling

end Chunkwise
