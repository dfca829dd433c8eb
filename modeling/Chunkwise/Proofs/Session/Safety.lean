import Chunkwise.Proofs.Session.Storage

/-!
In a disciplined history no interface lists another and no unit runs once a slot in its code is out
of use. There the strict reading holds throughout: every value is one of its static type, and no run
ends in a defect of the machine.
-/
namespace Chunkwise

theorem Stop.not_expected_internal {d : Defect} : ¬ (Stop.internal d).Expected true := by
  cases d <;> simp [Stop.Expected]

/-- Whether an entry is anything but an interface that lists others. -/
def Entry.isFlat (e : Entry) : Bool :=
  match e.container with
  | .type d => d.kind != .interfaceKind || d.interfaces.isEmpty
  | .space => true

theorem Image.flat_of_all {im : Image} (h : im.entries.all Entry.isFlat = true) : im.Flat := by
  intro p d hd hk
  have hflat := List.all_eq_true.mp h _ (typeDef?_mem hd)
  simpa [Entry.isFlat, hk] using hflat

namespace History

/-- Histories without interfaces that list others, and without runs of units whose slots have been
released. -/
inductive Disciplined : History → Prop where
  | start (settings : Settings) : Disciplined (start settings)
  | compile {h : History} (disciplined : Disciplined h) (src : Source) (chunkClass : ChunkClass)
      (mode : ParseMode) (flat : (h.compile src chunkClass mode).session.image.Flat) :
      Disciplined (h.compile src chunkClass mode)
  | run {h : History} (disciplined : Disciplined h) {u : CompiledUnit} (mem : u ∈ h.units)
      (live : ∀ i ∈ u.code.slots, h.session.store.isReleased i = false) (limits : RunLimits) :
      Disciplined (h.run u limits)

variable {h : History}

theorem Disciplined.reachable (hd : h.Disciplined) : h.Reachable := by
  induction hd with
  | start settings => exact .start settings
  | compile _ src chunkClass mode _ ih => exact ih.compile src chunkClass mode
  | run _ mem _ limits ih => exact ih.run mem limits

theorem Disciplined.flat (hd : h.Disciplined) : h.session.image.Flat := by
  induction hd with
  | start settings => exact Evaluator.ofSettings_flat settings
  | compile _ _ _ _ flat _ => exact flat
  | run _ _ _ _ ih => exact ih

theorem Disciplined.covered (hd : h.Disciplined) : h.session.image.Covered :=
  hd.flat.covered hd.reachable.valid.session.sound

theorem Disciplined.store_ok (hd : h.Disciplined) : h.session.store.Ok true h.session.image := by
  induction hd with
  | start settings => exact Evaluator.ofSettings_store settings true
  | @compile h hd src chunkClass mode _ ih =>
    have hv := hd.reachable.valid
    rcases compile_cases hv src chunkClass mode with ⟨u, b, -, hdelivers, heq⟩ | ⟨-, heq⟩
    · rw [heq]
      exact Session.commit_ok hv.session hdelivers ih
    · rw [heq]
      exact ih
  | @run h hd u mem live limits ih =>
    have hv := hd.reachable.valid
    obtain ⟨y, hy⟩ := hv.units u mem
    exact (outcome_sound hv hd.covered ih (hy.strictly live) limits).1

/-- The machine as code of this session meets it, with any number of levels of calls left. -/
structure Inside (h : History) (env : Env) (calls : Machine.Calls) : Prop where
  image : env.image = h.session.image
  calls : ∃ limit room, calls = ⟨Machine.invoke env limit room, Machine.create env limit room⟩

/-- The state in which a run of a unit begins. -/
def initial (h : History) (u : CompiledUnit) : RunState :=
  ⟨h.session.store, "", Frame.ofSize u.code.locals none, 0, 0⟩

/-- Type safety of a history. What a state owes to the code that runs in it is said by `Holds`: each
local that is set lies within the frame and holds a value of its type, and so do the slots in use and
the fields of all objects. A local may be read only where it is set. -/
structure TypeSafe (h : History) : Prop where
  /-- An object behind an interface is one of a type that lists it. -/
  listed : ∀ p q, h.session.image.Reaches p q → h.session.image.implements p q = true
  slots : ∀ (i : Nat) (slot : Slot), h.session.store.slots[i]? = some slot →
    slot.released = false →
    slot.value.Conforms h.session.image h.session.store.objects slot.type
  fields : ∀ (id : Nat) (o : Object), h.session.store.heap[id]? = some o →
    ∃ d, h.session.image.typeDef? o.type = some d ∧ d.Instantiable ∧
      o.fields.size = d.fields.length ∧ ∀ (i : Nat) (f : InstanceField) (v : Value),
        d.fields[i]? = some f → o.fields[i]? = some v →
        v.Conforms h.session.image h.session.store.objects f.type
  /-- The binder gives an expression a type that it has. -/
  assigned : ∀ (b : BindState) (c : TypingContext) (e : Expr) (v : Typed) (b' : BindState),
    b.Fits c → (∀ x ∈ b.cache, x.2.Known b.image) → Bind.expr e b = (some v, b') →
    v.expr.HasType c v.type
  /-- All bodies are typed by their signatures. -/
  bodies : ∀ p d, h.session.image.typeDef? p = some d → d.BodiesOk h.session.image p
  /-- A typed expression evaluates to a value of its type. -/
  evaluated : ∀ env calls c e t st, h.Inside env calls → c.image = h.session.image →
    e.HasType c t → Run.Sound true c st (Machine.eval env calls e) fun v st' =>
      v.Conforms c.image st'.objects t
  /-- A typed statement leads from the locals set before it to those set after it, and a value that
  it returns is one of the return type. -/
  executed : ∀ env calls limit c s loop Γ Δ, h.Inside env calls → c.image = h.session.image →
    s.WellTyped c loop Γ Δ → Run.Triple true c.image (c.Holds true Γ)
      (Machine.exec env calls limit s) (Machine.After true c Γ Δ)
  /-- A method that is called with arguments of its parameter types returns a value of its return
  type, and a new object is one of its type. -/
  called : ∀ env calls, h.Inside env calls → calls.Ok true h.session.image
  /-- A unit whose slots are in use is typed, its runs begin in a state that fits, none of them ends
  in a defect, and what they capture is of the type that the unit yields. -/
  runs : ∀ u ∈ h.units, (∀ i ∈ u.code.slots, h.session.store.isReleased i = false) →
    ∃ y, u.code.TypedIn h.session true y ∧
      (h.session.unitContext true u.code y).Holds true .none (h.initial u) ∧
      ∀ limits, (∀ d, (h.outcome u limits).result ≠ .error (.internal d)) ∧
        ∀ v, (h.outcome u limits).result = .ok (some v) → ∃ t, y = some t ∧
          v.Conforms h.session.image (h.outcome u limits).store.objects t

theorem Disciplined.ready (hd : h.Disciplined) {env : Env} {calls : Machine.Calls}
    (hin : h.Inside env calls) : Machine.Ready true h.session.image env calls := by
  obtain ⟨limit, room, rfl⟩ := hin.calls
  have hs := hd.reachable.valid.session.sound
  exact ⟨hin.image, hs, hd.covered, Machine.calls_ok hin.image hs hd.covered limit room⟩

theorem Disciplined.runs (hd : h.Disciplined) {u : CompiledUnit} (hu : u ∈ h.units)
    (hlive : ∀ i ∈ u.code.slots, h.session.store.isReleased i = false) :
    ∃ y, u.code.TypedIn h.session true y ∧
      (h.session.unitContext true u.code y).Holds true .none (h.initial u) ∧
      ∀ limits, (∀ d, (h.outcome u limits).result ≠ .error (.internal d)) ∧
        ∀ v, (h.outcome u limits).result = .ok (some v) → ∃ t, y = some t ∧
          v.Conforms h.session.image (h.outcome u limits).store.objects t := by
  have hv := hd.reachable.valid
  obtain ⟨y, hy⟩ := hv.units u hu
  have hstrict := hy.strictly hlive
  refine ⟨y, hstrict, ?_, fun limits => ?_⟩
  · refine ⟨⟨hd.store_ok, fun i t ho => ho, fun i t hi => (by cases hi), fun p hp => (by cases hp)⟩,
      ?_, fun v hv => (by cases hv)⟩
    simp [initial, Frame.ofSize, Session.unitContext]
  · have hmeets := (outcome_sound hv hd.covered hd.store_ok hstrict limits).2.2
    refine ⟨fun d hstop => ?_, fun v hvalue => ?_⟩
    · rw [hstop] at hmeets
      exact Stop.not_expected_internal hmeets
    · rw [hvalue] at hmeets
      obtain ⟨t, ht, hb⟩ := hmeets v rfl
      exact ⟨t, ht, hb.strictly⟩

/-- Disciplined histories are type safe. -/
theorem Disciplined.type_safe (hd : h.Disciplined) : h.TypeSafe where
  listed _ _ hreach := hd.flat.reaches hd.reachable.valid.session.sound hreach
  slots i slot hi hr := (hd.store_ok.slots i slot hi fun _ => hr).strictly
  fields id o ho := by
    obtain ⟨d, hd, hi, hsize, hfields⟩ := hd.store_ok.heap id o ho
    exact ⟨d, hd, hi, hsize, fun i f v hf hv => (hfields i f v hf hv).strictly⟩
  assigned b c e v b' hfits hcache hbind := by
    have hexpr := Bind.expr_ok hfits e b (.refl hcache)
    rw [hbind] at hexpr
    exact hexpr.2.1
  bodies := hd.reachable.valid.session.sound.bodies
  evaluated env calls c e t st hin hc he := by
    have hready := hd.ready hin
    rw [← hc] at hready
    exact (Machine.eval_sound hready he).mono fun _ _ _ hv => hv.strictly
  executed env calls limit c s loop Γ Δ hin hc hs := by
    have hready := hd.ready hin
    rw [← hc] at hready
    exact Machine.exec_sound hready hs
  called env calls hin := (hd.ready hin).calls
  runs u hu hlive := hd.runs hu hlive

def shape : History := blank.compile
  ⟨"test", "interface I \x7b int F(); \x7d class C : I \x7b int F() \x7b return 4; \x7d \x7d"⟩
  .declarations .silent

/-- A unit that calls the class through the interface. -/
def shapeUsed : History := shape.compile ⟨"test", "I i = new C(); i.F()"⟩ .statements .silent

theorem shapeUsed_units : shapeUsed.units ≠ [] := by decide +kernel

def shapeRun : History :=
  shapeUsed.run (shapeUsed.units.getLast shapeUsed_units) ⟨100, none, 100⟩

theorem shapeUsed_runs :
    shape.session.image.entries.all Entry.isFlat = true ∧
    shapeUsed.session.image.entries.all Entry.isFlat = true ∧
    (∀ i ∈ (shapeUsed.units.getLast shapeUsed_units).code.slots,
      shapeUsed.session.store.isReleased i = false) ∧
    (shapeUsed.outcome (shapeUsed.units.getLast shapeUsed_units) ⟨100, none, 100⟩).result =
      .ok (some (.int 4)) := by
  decide +kernel

/-- A history of two chunks and a run that yields a value. -/
theorem type_safe_shape : shapeRun.TypeSafe ∧
    (shapeUsed.outcome (shapeUsed.units.getLast shapeUsed_units) ⟨100, none, 100⟩).result =
      .ok (some (.int 4)) := by
  obtain ⟨hflat, hflat', hlive, hresult⟩ := shapeUsed_runs
  have hshapeFlat : shape.session.image.Flat := Image.flat_of_all hflat
  have husedFlat : shapeUsed.session.image.Flat := Image.flat_of_all hflat'
  have hshape : shape.Disciplined := .compile (h := blank) (.start _) _ _ _ hshapeFlat
  have hused : shapeUsed.Disciplined := .compile (h := shape) hshape _ _ _ husedFlat
  have hrun : shapeRun.Disciplined := .run hused (List.getLast_mem shapeUsed_units) hlive _
  exact ⟨hrun.type_safe, hresult⟩

end History

end Chunkwise
