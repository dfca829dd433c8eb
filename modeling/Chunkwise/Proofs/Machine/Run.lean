import Chunkwise.Machine.Run
import Chunkwise.Proofs.Machine.Exec

/-!
Calling is sound by induction on the levels left, so a whole run of typed code is: what it leaves
behind fits its types, and so does the value it captures.
-/
namespace Chunkwise

namespace Run.SoundCall

variable {α β : Type} {strict : Bool} {im : Image} {st : Store} {p : Run α}
  {Q Q' : α → Store → Prop} {R : β → Store → Prop}

theorem pure {a : α} (h : ∀ st', st.Later st' → Q a st') :
    SoundCall strict im st (Pure.pure a : Run α) Q := fun _ hs hl => ⟨hs, .refl _, rfl, h _ hl⟩

theorem bind {f : α → Run β} (hp : SoundCall strict im st p Q)
    (hf : ∀ a st', st.Later st' → Q a st' → SoundCall strict im st' (f a) R) :
    SoundCall strict im st (p >>= f) R := by
  intro s hs hl
  have h := hp s hs hl
  have hbind : (p >>= f) s = Run.bind p f s := rfl
  rw [hbind]
  unfold Run.bind
  revert h
  rcases p s with ⟨_ | a, s'⟩
  · exact id
  · rintro ⟨hok, hl', hframe, ha⟩
    have h' := hf a s'.store (hl.trans hl') ha s' hok (.refl _)
    revert h'
    simp only
    rcases f a s' with ⟨_ | b, s''⟩
    · exact fun ⟨he, hok', hl''⟩ => ⟨he, hok', hl'.trans hl''⟩
    · exact fun ⟨hok', hl'', hf', hb⟩ => ⟨hok', hl'.trans hl'', hf'.trans hframe, hb⟩

theorem deeper (env : Env) (h : SoundCall strict im st p Q) :
    SoundCall strict im st (Run.deeper env p) Q := by
  have hpoll : SoundCall strict im st (Run.poll env) fun _ _ => True := by
    intro s hs hl
    unfold Run.poll
    cases env.cancelAfter with
    | none => exact ⟨hs, .refl _, rfl, trivial⟩
    | some k =>
      by_cases hk : k ≤ s.polls
      · simp only [hk, if_true]
        exact ⟨trivial, hs, .refl _⟩
      · simp only [hk, if_false]
        exact ⟨hs, .refl _, trivial, trivial⟩
  refine bind hpoll fun _ st' hst _ s hs hl => ?_
  by_cases hd : env.maxDepth ≤ s.depth
  · simp only [hd, if_true]
    exact ⟨trivial, hs, .refl _⟩
  · simp only [hd, if_false]
    have hp := h { s with depth := s.depth + 1 } hs (hst.trans hl)
    revert hp
    rcases p { s with depth := s.depth + 1 } with ⟨_ | a, s'⟩
    · exact id
    · exact fun ⟨hok, hl', hf, ha⟩ => ⟨hok, hl', hf, ha⟩

theorem inFrame {frame : Frame} {P : RunState → Prop} {T : α → RunState → Prop}
    (h : Triple strict im P p T)
    (hP : ∀ s : RunState, s.store.Ok strict im → st.Later s.store → P { s with frame })
    (hT : ∀ a s, T a s → s.store.Ok strict im ∧ Q a s.store) :
    SoundCall strict im st (Run.inFrame frame p) Q := by
  intro s hs hl
  have hp := h { s with frame } (hP s hs hl)
  revert hp
  unfold Run.inFrame
  simp only
  rcases p { s with frame } with ⟨_ | a, s'⟩
  · exact id
  · rintro ⟨ha, hl'⟩
    obtain ⟨hok, hq⟩ := hT a s' ha
    exact ⟨hok, hl', rfl, hq⟩

end Run.SoundCall

namespace Machine

open Run

variable {strict : Bool} {im : Image} {env : Env} {calls : Calls} {limit : Nat} {st : Store}

/-- A new frame holds the arguments in its first slots. -/
theorem frameOf_holds {code : Code} {self : Option Path} {params : List Ty} {returns : Ty}
    {thisObject : Option ObjectRef} {args : List Value} {s : RunState}
    (hsize : params.length ≤ code.locals) (hok : s.store.Ok strict im)
    (hself : ∀ p, self = some p → ∃ o, thisObject = some o ∧ o.type = p ∧
      s.store.objects o.id = some p)
    (hargs : List.Forall₂ (fun v t => v.Belongs strict im s.store.objects t) args params) :
    CodeContext.Holds strict ⟨im, im.StaticSlot, self, code.locals, some returns, none⟩
      (.ofParams params) { s with frame := frameOf code thisObject args } := by
  have hlen := hargs.length_eq
  refine ⟨⟨hok, fun i t hi => hok.statics i t hi, fun i t hi => ?_, hself⟩, ?_, fun v hv => ?_⟩
  · have hi' : params[i]? = some t := hi
    obtain ⟨hlt, rfl⟩ := List.getElem?_eq_some_iff.mp hi'
    have hlt' : i < args.length := hlen ▸ hlt
    refine ⟨args[i], ?_, (List.forall₂_iff_get.mp hargs).2 i hlt' hlt⟩
    dsimp only [frameOf]
    rw [List.getElem?_toArray, List.getElem?_append_left hlt', List.getElem?_eq_getElem hlt']
  · simp [frameOf]
    omega
  · cases hv

theorem native_sound {n : Native} {t : Ty} (h : n.Gives t) (im' : Image) (args : List Value) :
    SoundCall strict im st (native im' n args) fun v st' => v.Belongs strict im st'.objects t := by
  have hprint : ∀ text, SoundCall strict im st (Run.print text) fun _ _ => True :=
    fun _ _ hs _ => ⟨hs, .refl _, rfl, trivial⟩
  cases n with
  | writeLine | writeBlankLine | write =>
    cases (show t = .void from h)
    exact (hprint _).bind fun _ _ _ _ => SoundCall.pure fun _ _ => .inl rfl
  | absInt | maxInt | minInt => exact SoundCall.pure fun _ _ => belongs_int h _
  | absDouble | maxDouble | minDouble | sqrt | pow =>
    exact SoundCall.pure fun _ _ => belongs_double h _

/-- A body that owes a result gives one; any other gives null. -/
theorem resultOf_belongs {code : Code} {self : Option Path} {params : List Ty} {returns : Ty}
    {flow : Flow} {s : RunState} (hcode : code.WellTyped im self params returns)
    (hflow : AllAllow code.body flow) {Γ Δ : Locals}
    (h : After strict ⟨im, im.StaticSlot, self, code.locals, some returns, none⟩ Γ Δ flow s) :
    (resultOf flow).Belongs strict im s.store.objects returns := by
  obtain ⟨-, hend, Θ, hbody⟩ := hcode
  cases flow with
  | next =>
    by_cases hv : returns = .void
    · subst hv
      exact .inl rfl
    · have hcompletes : BoundStmt.allComplete code.body = true := hflow
      simp [hend hv] at hcompletes
  | out | again =>
    have hjumps : BoundStmt.anyJumps _ code.body = true := hflow
    simp [hbody.anyJumps_eq] at hjumps
  | returned v =>
    obtain ⟨-, t, ht, hv⟩ := h
    cases ht
    exact hv

theorem runBody_sound (h : Ready strict im env calls) {m : Method} {self : Option Path}
    {thisObject : Option ObjectRef} {args : List Value}
    (hm : m.Applies strict im st self thisObject args) :
    SoundCall strict im st (runBody env limit calls m thisObject args) fun v st' =>
      v.Belongs strict im st'.objects m.returns := by
  have hbody := hm.body
  unfold Method.BodyOk at hbody
  unfold runBody
  split at hbody
  · exact hbody.elim
  · next ha =>
    have := hm.concrete
    simp [Method.isAbstract, ha] at this
  · next n hn =>
    simp only [hn]
    exact native_sound hbody _ _
  · next code hcode =>
    simp only [hcode]
    obtain ⟨hsize, hend, Δ, hstmts⟩ := id hbody
    have hexec : Triple strict im _ (execAll env calls limit code.body) _ := execAll_sound h hstmts
    have hrun := hexec.ends (execAll_allows env calls limit _)
    have hframe : SoundCall strict im st
        (Run.inFrame (frameOf code thisObject args) (execAll env calls limit code.body))
        fun flow st' => (resultOf flow).Belongs strict im st'.objects m.returns := by
      refine SoundCall.inFrame hrun (fun s hs hl => ?_) fun flow s hs =>
        ⟨hs.1.store, resultOf_belongs hbody hs.2 hs.1⟩
      refine frameOf_holds hsize hs (fun p hp => ?_) (forall₂_belongs_later hm.args hl)
      obtain ⟨o, ho, ht, hid⟩ := hm.self p hp
      exact ⟨o, ho, ht, hl.objects _ _ hid⟩
    exact hframe.bind fun flow _ _ hv => SoundCall.pure fun _ hl => hv.later hl

theorem newObject_sound (henv : env.image = im) {p : Path} {d : TypeDef}
    (hd : im.typeDef? p = some d) (hi : d.Instantiable) :
    SoundCall strict im st (newObject env p d) fun o st' =>
      o.type = p ∧ st'.objects o.id = some p := by
  intro s hs hl
  refine ⟨hs.addObject hd hi (by simp [defaultFields]) fun i f v hf hv => ?_,
    s.store.addObject_later p _, rfl, rfl, s.store.addObject_objects p _⟩
  obtain rfl : env.image.defaultValue f.type = v := by simpa [defaultFields, hf] using hv
  rw [henv]
  exact .inl (Value.conforms_defaultValue im _)

/-- The initial values of fields are set one after the other. -/
theorem initFields_sound (h : Ready strict im env calls) {p : Path} {d : TypeDef} {o : ObjectRef}
    (hd : im.typeDef? p = some d) (hp : o.type = p) :
    ∀ {inits : List (Nat × BoundExpr)} {st : Store}, st.objects o.id = some p →
    (∀ x ∈ inits, ∃ f, d.fields[x.1]? = some f ∧
      x.2.Fits ⟨im, im.StaticSlot, .none, some p⟩ f.type) →
    Sound strict ⟨im, im.StaticSlot, .none, some p⟩ st (initFields env calls o inits)
      fun _ _ => True
  | [], _, _, _ => Sound.pure fun _ _ => trivial
  | (i, e) :: rest, st, hid, hinits => by
    obtain ⟨f, hf, u, he, hu⟩ := hinits (i, e) (by simp)
    rw [initFields]
    refine (eval_sound h he).bind fun v _ h₁ hv => ?_
    have hloc : (Location.field o i).Ok ⟨im, im.StaticSlot, .none, some p⟩ _ f.type :=
      ⟨d, f, hp ▸ h₁.objects _ _ hid, hp ▸ hd, hf, rfl⟩
    refine (save_sound hloc (hv.passes h.sound hu)).bind fun _ _ h₂ _ => ?_
    exact initFields_sound h hd hp (h₂.objects _ _ (h₁.objects _ _ hid)) fun x hx =>
      hinits x (List.mem_cons_of_mem _ hx)

/-- Field initializers run in an empty frame of the new object. -/
theorem initFrame_sound (h : Ready strict im env calls) {p : Path} {d : TypeDef} {o : ObjectRef}
    (hd : im.typeDef? p = some d) (hp : o.type = p) (hid : st.objects o.id = some p) :
    SoundCall strict im st
      (Run.inFrame (Frame.ofSize 0 (some o)) (initFields env calls o d.inits))
      fun _ _ => True := by
  have hinits := initFields_sound h hd hp hid (h.sound.bodies p d hd).inits
  have htriple : Triple strict im
      (fun s => TypingContext.Holds strict ⟨im, im.StaticSlot, .none, some p⟩ s ∧
        st.Later s.store) (initFields env calls o d.inits) fun _ s => s.store.Ok strict im := by
    rintro s ⟨hs, hl⟩
    have hrun := hinits s hs hl
    revert hrun
    rcases initFields env calls o d.inits s with ⟨_ | a, s'⟩
    · exact id
    · exact fun ⟨hs', hst, _⟩ => ⟨hs'.store, hst.store⟩
  refine SoundCall.inFrame htriple (fun s hs hl => ⟨⟨hs, fun i t hi => hs.statics i t hi, ?_, ?_⟩, hl⟩)
    fun _ _ hok => ⟨hok, trivial⟩
  · intro i t hi
    cases hi
  · rintro q hq
    cases hq
    exact ⟨o, rfl, hp, hl.objects _ _ hid⟩

theorem build_sound (h : Ready strict im env calls) {p : Path} {d : TypeDef}
    {constructor : Option Nat} {args : List Value} (hd : im.typeDef? p = some d)
    (hi : d.Instantiable)
    (hargs : ∀ m, (constructor.bind fun i => d.constructors[i]?) = some m →
      List.Forall₂ (fun v t => v.Belongs strict im st.objects t) args m.paramTypes) :
    SoundCall strict im st (build env calls p constructor args) fun v st' =>
      v.Belongs strict im st'.objects (.named p) := by
  unfold build
  simp only [h.image, hd]
  refine (newObject_sound h.image hd hi).bind fun o _ h₁ hnew => ?_
  obtain ⟨hp, hid⟩ := hnew
  refine (initFrame_sound h hd hp hid).bind fun _ st₂ h₂ _ => ?_
  have hobject : ∀ st', st₂.Later st' → o.value.Belongs strict im st'.objects (.named p) :=
    fun st' hl => .inl (conforms_object hd hi.1 hp (hl.objects _ _ (h₂.objects _ _ hid)))
  split
  · next m hm =>
    obtain ⟨i, -, hi⟩ := Option.bind_eq_some_iff.mp hm
    have hmem := List.mem_of_getElem? hi
    have hsig := (h.sound.sigs p d hd).constructors m hmem
    refine SoundCall.bind (h.calls.invoke ⟨(h.sound.bodies p d hd).constructors m hmem, hsig.2.2, ?_,
      forall₂_belongs_later (hargs m hm) (h₁.trans h₂)⟩) fun _ st₃ h₃ _ =>
        SoundCall.pure fun _ hl => hobject _ (h₃.trans hl)
    rintro q hq
    cases hq
    exact ⟨o, rfl, hp, h₂.objects _ _ hid⟩
  · exact SoundCall.pure hobject

theorem calls_ok (henv : env.image = im) (hs : im.Sound) (hc : im.Covered) (limit room : Nat) :
    Calls.Ok strict im ⟨invoke env limit room, create env limit room⟩ := by
  induction room with
  | zero =>
    refine ⟨fun _ s hok _ => ?_, fun _ _ _ s hok _ => ?_⟩
    · exact ⟨trivial, hok, .refl _⟩
    · exact ⟨trivial, hok, .refl _⟩
  | succ room ih =>
    have h : Ready strict im env ⟨invoke env limit room, create env limit room⟩ :=
      ⟨henv, hs, hc, ih⟩
    exact ⟨fun hm => (runBody_sound h hm).deeper env,
      fun hd hi hargs => (build_sound h hd hi hargs).deeper env⟩

/-- A run of typed code leaves typed storage behind and captures a value of its type. -/
theorem run_sound {c : CodeContext} {code : Code} {Δ : Locals} {store : Store}
    (henv : env.image = c.image) (hs : c.image.Sound) (hc : c.image.Covered)
    (hsize : code.locals = c.size) (hself : c.self = none)
    (hcode : BoundStmt.AllWellTyped c false code.body .none Δ) (hok : store.Ok strict c.image)
    (hslots : ∀ i t, c.slots i t → store.Offers strict i t) :
    let out := run env limit store code
    out.store.Ok strict c.image ∧ store.Later out.store ∧ Run.Meets strict out.result fun v? =>
      ∀ v, v? = some v → ∃ t, c.yields = some t ∧ v.Belongs strict c.image out.store.objects t := by
  have h : Ready strict c.image env (topCalls env limit) :=
    ⟨henv, hs, hc, calls_ok henv hs hc limit _⟩
  have hholds : c.Holds strict .none ⟨store, "", Frame.ofSize code.locals none, 0, 0⟩ := by
    refine ⟨⟨hok, hslots, fun i t hi => (by cases hi), fun p hp => ?_⟩, ?_, fun v hv => (by cases hv)⟩
    · simp [CodeContext.typing, hself] at hp
    · simpa [Frame.ofSize] using hsize
  have hexec : Triple strict c.image _ (execAll env (topCalls env limit) limit code.body) _ :=
    execAll_sound h hcode
  have hrun := hexec _ hholds
  simp only [run]
  revert hrun
  rcases execAll env (topCalls env limit) limit code.body
    ⟨store, "", Frame.ofSize code.locals none, 0, 0⟩ with ⟨e | flow, s'⟩
  · rintro ⟨he, hok', hl⟩
    exact ⟨hok', hl, he⟩
  · rintro ⟨hafter, hl⟩
    refine ⟨hafter.store, hl, ?_⟩
    cases flow with
    | next => exact CodeContext.Holds.result hafter
    | out | again => exact CodeContext.Holds.result hafter
    | returned v => exact hafter.1.result

end Machine

end Chunkwise
