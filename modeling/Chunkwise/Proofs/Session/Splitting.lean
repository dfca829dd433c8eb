import Chunkwise.Proofs.Split.Join
import Chunkwise.Proofs.Split.Run

/-!
A chunk of statements can be cut in two and evaluated part by part. Whether a variable is bound at the
top of the one chunk or registered by another one, how frame slots are numbered and which statement
gives the result differ between the two ways; what the program writes, its result and what is left of
the session do not.
-/
namespace Chunkwise

open Attempt

/-- The surroundings of a run on an image. -/
def RunLimits.env (limits : RunLimits) (im : Image) : Env := ⟨im, limits.maxDepth, limits.cancelAfter⟩

namespace Session

/-- Binds statements as a chunk, commits it and runs its unit once; none if there is a problem. -/
def evaluate (s : Session) (limits : RunLimits) (src : Source) (unit : StatementUnit) :
    Option (Session × Machine.Outcome) :=
  let c := s.bind src .statements (Bind.statementUnit unit)
  match c.outcome with
  | .unit u =>
    let o := Machine.run (limits.env c.session.image) limits.rounds c.session.store u.code
    some ({ c.session with store := o.store }, o)
  | _ => none

/-- The variables that statements declare when they are bound as a chunk, none if there is a problem. -/
def unitVariables (s : Session) (unit : StatementUnit) : List PendingVariable :=
  match (Bind.statementUnit unit).finished? s.bindStart with
  | some (_, b) => b.newVariables
  | none => []

variable {s : Session} {unit : StatementUnit} {body : List BoundStmt} {b : BindState}

/-- Commits a binding and runs its code. -/
def runBound (s : Session) (limits : RunLimits) (x : Code × BindState) : Session × Machine.Outcome :=
  let after := s.commit x.2
  let o := Machine.run (limits.env after.image) limits.rounds after.store x.1
  ({ after with store := o.store }, o)

theorem evaluate_eq (s : Session) (limits : RunLimits) (src : Source) (unit : StatementUnit) :
    s.evaluate limits src unit =
      ((Bind.statementUnit unit).finished? s.bindStart).map (s.runBound limits) := by
  unfold evaluate Session.bind Bind.finished? bindStart
  rcases Bind.statementUnit unit (BindState.start s.image s.registry s.store) with ⟨_ | code, b⟩
  · rfl
  · by_cases hany : b.issues.hasAny = true
    · simp only [hany, if_true, Option.map_none]
    · simp only [hany, if_false, Option.map_some, Bool.false_eq_true, runBound]

/-- A chunk of statements is bound if its statements are bound without a problem. -/
theorem finished_statementUnit {code : Code} :
    (Bind.statementUnit unit).finished? s.bindStart = some (code, b) ↔
      Bind.hostStmts unit.stmts s.bindStart = (some code.body, b) ∧ b.issues.hasAny = false ∧
        code.locals = b.body.scopes.nextSlot := by
  have hrun : Bind.statementUnit unit s.bindStart =
      match Bind.hostStmts unit.stmts s.bindStart with
      | (some body, b) =>
        if b.issues.hasAny then (none, b) else (some ⟨body, b.body.scopes.nextSlot⟩, b)
      | (none, b) => (none, b) := by
    change Attempt.bind (Bind.hostStmts unit.stmts) _ s.bindStart = _
    unfold Attempt.bind
    rcases Bind.hostStmts unit.stmts s.bindStart with ⟨_ | body, b⟩
    · rfl
    · simp only [Bind.stopOnErrors, Bind.hasErrors, Bind.body, Bind.bind, Attempt.bind, Attempt.gets,
        Pure.pure, Attempt.pure, Scopes.slotCount]
      cases b.issues.hasAny <;> rfl
  rw [Bind.finished?_eq_some, hrun]
  obtain ⟨body, locals⟩ := code
  rcases Bind.hostStmts unit.stmts s.bindStart with ⟨_ | body', b'⟩
  · simp
  · by_cases hany : b'.issues.hasAny = true
    · simp only [hany, if_true]
      grind
    · simp only [hany]
      grind

variable {r : Registry} {st st' : Store} {vs ws : List PendingVariable}

theorem registerAll_registry : (registerAll vs r st).1 = (registerAll vs r st').1 := by
  induction vs generalizing r st st' with
  | nil => rfl
  | cons v vs ih =>
    rw [registerAll_cons, registerAll_cons]
    exact ih

theorem registerAll_append {st₁ st₂ : Store} : (registerAll (vs ++ ws) r st).1 =
    (registerAll ws (registerAll vs r st₁).1 st₂).1 := by
  have happend : registerAll (vs ++ ws) r st =
      registerAll ws (registerAll vs r st).1 (registerAll vs r st).2 := List.foldl_append
  have hfirst : (registerAll vs r st).1 = (registerAll vs r st₁).1 := registerAll_registry
  rw [happend, hfirst]
  exact registerAll_registry

theorem registerAll_new (hnames : (vs.map PendingVariable.name).Nodup)
    (hnew : ∀ v ∈ vs, r.lookup v.name = none) : (registerAll vs r st).2 = st := by
  have hslots : (registerAll vs r st).2.slots = st.slots := by
    refine Array.ext_getElem? fun i => ?_
    rw [registerAll_slot hnames, if_neg]
    intro hfrees
    obtain ⟨v, hv, w, hw, -⟩ := frees_iff.mp hfrees
    rw [hnew v hv] at hw
    cases hw
  have hheap : (registerAll vs r st).2.heap = st.heap := registerAll_heap
  exact congr (congrArg Store.mk hslots) hheap

theorem commit_image (h : b.Hosted s) : (s.commit b).image = s.image := by
  change b.image.commit b.usings b.declared = s.image
  rw [h.usings, h.declared, h.image]
  simp [Image.commit]

theorem commit_store (h : b.Hosted s)
    (hnew : ∀ v ∈ b.newVariables, s.registry.lookup v.name = none) : (s.commit b).store = b.store :=
  registerAll_new h.names hnew

theorem hosted_of_hostStmts (hs : s.Valid) {xs : List Stmt}
    (hrun : Bind.hostStmts xs s.bindStart = (some body, b)) :
    b.Hosted s ∧ b.Delivers s ⟨body, b.body.scopes.nextSlot⟩ := by
  have hhosts := Bind.hostStmts_hosts hs xs (BindState.start_hosted s) (BindState.start_at hs)
  change Bind.Hosts s _ _ (Bind.hostStmts xs s.bindStart) _ at hhosts
  rw [hrun] at hhosts
  obtain ⟨h, -, Δ, -, hat, hcode⟩ := hhosts
  exact ⟨h, h.delivers hs hat hcode⟩

theorem within_of_delivers {code : Code} (h : b.Delivers s code) :
    BoundStmt.AllWithin code.locals b.store.slots.size true code.body := by
  obtain ⟨y, Δ, hcode⟩ := h.code
  exact (BoundStmt.AllWellTyped.within (Nat.le_refl _) (fun _ _ ho => Store.Offers.lt ho)
    (fun _ _ => rfl)
    Locals.below_none hcode).1

theorem Valid.image_within (hs : s.Valid) {m : Nat} (hm : s.store.slots.size ≤ m) :
    s.image.Within m := by
  refine hs.sound.within fun i t hi => ?_
  have := (hs.statics i t hi).lt
  omega

/-- The session after a run of a chunk. -/
def after (s : Session) (b : BindState) (o : Machine.Outcome) : Session :=
  { s.commit b with store := o.store }

/-- Statements that are bound without a problem as a chunk, declare only new names and run so. -/
structure Evaluates (s : Session) (limits : RunLimits) (xs : List Stmt) (body : List BoundStmt)
    (b : BindState) (o : Machine.Outcome) : Prop where
  run : Bind.hostStmts xs s.bindStart = (some body, b)
  clean : b.issues.hasAny = false
  fresh : ∀ x ∈ b.newVariables, s.registry.lookup x.name = none
  outcome : Machine.run (limits.env s.image) limits.rounds b.store ⟨body, b.body.scopes.nextSlot⟩ = o

namespace Evaluates

variable {limits : RunLimits} {xs ys : List Stmt} {o : Machine.Outcome}

theorem hosted (h : s.Evaluates limits xs body b o) (hs : s.Valid) : b.Hosted s :=
  (hosted_of_hostStmts hs h.run).1

theorem delivers (h : s.Evaluates limits xs body b o) (hs : s.Valid) :
    b.Delivers s ⟨body, b.body.scopes.nextSlot⟩ := (hosted_of_hostStmts hs h.run).2

theorem evaluate (h : s.Evaluates limits xs body b o) (hs : s.Valid) (src : Source) (span : Span) :
    s.evaluate limits src ⟨xs, span⟩ = some (s.after b o, o) := by
  have hb := h.hosted hs
  have hfinished : (Bind.statementUnit ⟨xs, span⟩).finished? s.bindStart =
      some (⟨body, b.body.scopes.nextSlot⟩, b) := finished_statementUnit.mpr ⟨h.run, h.clean, rfl⟩
  simp only [evaluate_eq, hfinished, Option.map_some, runBound, commit_image hb,
    commit_store hb h.fresh, h.outcome, after]

theorem of_evaluate (hs : s.Valid) {src : Source} {s' : Session}
    (hfresh : ∀ x ∈ s.unitVariables unit, s.registry.lookup x.name = none)
    (h : s.evaluate limits src unit = some (s', o)) :
    ∃ body b, s.Evaluates limits unit.stmts body b o ∧ s' = s.after b o := by
  obtain ⟨⟨⟨body, n⟩, b⟩, hfinished, hrun⟩ := Option.map_eq_some_iff.mp
    ((evaluate_eq s limits src unit).symm.trans h)
  simp only [unitVariables, hfinished] at hfresh
  obtain ⟨hbody, hclean, rfl⟩ := finished_statementUnit.mp hfinished
  obtain ⟨hb, -⟩ := hosted_of_hostStmts hs hbody
  simp only [runBound, commit_image hb, commit_store hb hfresh] at hrun
  obtain ⟨rfl, rfl⟩ := Prod.mk.inj hrun
  refine ⟨body, b, ⟨hbody, hclean, hfresh, rfl⟩, ?_⟩
  rw [after, commit_image hb]

theorem bindStart_after (h : s.Evaluates limits xs body b o) (hs : s.Valid) :
    (s.after b o).bindStart = .start s.image (b.namesAfter s) o.store := by
  change BindState.start (s.commit b).image _ _ = _
  rw [commit_image (h.hosted hs)]
  rfl

theorem later (h : s.Evaluates limits xs body b o) : b.store.Later o.store := by
  rw [← h.outcome]
  exact Machine.run_later _ _ _ _

theorem valid_after (h : s.Evaluates limits xs body b o) (hs : s.Valid) : (s.after b o).Valid := by
  refine (commit_valid hs (h.delivers hs)).later ?_
  rw [commit_store (h.hosted hs) h.fresh]
  exact h.later

/-- The names of the second part are new to the session that the first one leaves. -/
theorem fresh_after {t t' : BindState} {second : List BoundStmt} {o₁ : Machine.Outcome}
    {rest : Store} (h : s.Evaluates limits (xs ++ ys) body b o) (hs : s.Valid)
    (hpart : Bind.SecondPart s t b ys rest second t') {x : PendingVariable}
    (hx : x ∈ t'.newVariables) : (s.after t o₁).registry.lookup x.name = none := by
  have hnames := (h.hosted hs).names
  rw [hpart.added, List.map_append, List.nodup_append] at hnames
  have hother : ∀ y ∈ t.newVariables, y.name ≠ x.name := fun y hy =>
    hnames.2.2 y.name (List.mem_map_of_mem hy) x.name (List.mem_map_of_mem hx)
  refine (lookup_registerAll_of_not_mem hother).trans (h.fresh x ?_)
  rw [hpart.added]
  exact List.mem_append_right _ hx

/-- Statements that end well as one chunk end well as two, with the same result and output. -/
theorem parts (h : s.Evaluates limits (xs ++ ys) body b o) (hs : s.Valid) (hys : ys ≠ [])
    {v : Option Value} (hok : o.result = .ok v) :
    ∃ first t o₁ second t' o₂, s.Evaluates limits xs first t o₁ ∧
      (s.after t o₁).Evaluates limits ys second t' o₂ ∧
      (∃ v₁, o₁.result = .ok v₁) ∧ o₂.result = .ok v ∧ o.out = o₁.out ++ o₂.out ∧
      o.store = o₂.store ∧ b.newVariables = t.newVariables ++ t'.newVariables := by
  obtain ⟨first, t, vs, hfirst, hclean, -, hrest⟩ := Bind.hostStmts_parts hs hys h.run h.clean
  -- the run of the first chunk is settled before the second one is bound
  obtain ⟨o₁, ho₁⟩ : ∃ o₁, Machine.run (limits.env s.image) limits.rounds t.store
    ⟨first, t.body.scopes.nextSlot⟩ = o₁ := ⟨_, rfl⟩
  have hlater : t.store.Later o₁.store := ho₁ ▸ Machine.run_later _ _ _ _
  obtain ⟨second, t', hpart, hcode⟩ := hrest o₁.store hlater
  have hfresh : ∀ x ∈ t.newVariables, s.registry.lookup x.name = none := fun x hx =>
    h.fresh x (by rw [hpart.added]; exact List.mem_append_left _ hx)
  have h₁ : s.Evaluates limits xs first t o₁ := ⟨hfirst, hclean, hfresh, ho₁⟩
  have hsecond : Bind.hostStmts ys (s.after t o₁).bindStart = (some second, t') := by
    rw [h₁.bindStart_after hs, hpart.run]
  have hdelivers := (hosted_of_hostStmts (h₁.valid_after hs) hsecond).2
  obtain ⟨ws, hstore, hstore'⟩ := hpart.store
  have hsize : t'.store.slots.size =
      t.store.slots.size + (ws.map (NewVariable.slot s.image)).toArray.size := by
    simp [hstore', Bind.withVariables_size, hlater.size]
  have hwithin := within_of_delivers hdelivers
  rw [hsize] at hwithin
  obtain ⟨y, htyped⟩ := Code.TypedIn.of_delivers (h.delivers hs)
  have hrun := h.outcome
  rw [hpart.nextSlot, hstore] at hrun
  have hadds := (h₁.delivers hs).store.size
  obtain ⟨_, o₂, hrun₁, hrun₂, hok₁, hok₂, hout, hleft⟩ := Machine.run_parts
    (hs.image_within hadds) (hs.image_within (Nat.le_trans hadds (Nat.le_add_right _ _)))
    (within_of_delivers (h₁.delivers hs)) hwithin hcode htyped.ends hrun hok
  obtain rfl := ho₁.symm.trans hrun₁
  refine ⟨first, t, o₁, second, t', o₂, h₁, ⟨hsecond, hpart.clean, ?_, ?_⟩, hok₁, hok₂, hout, hleft,
    hpart.added⟩
  · exact fun x hx => h.fresh_after hs hpart hx
  · have himage : (s.after t o₁).image = s.image := commit_image (h₁.hosted hs)
    rw [himage, hstore']
    exact hrun₂

end Evaluates

end Session

namespace History

variable {h : History}

/-- Evaluating the statements of a text is compiling the text and running its unit. -/
theorem evaluate_read {src : Source} {unit : StatementUnit} {mode : ParseMode} {u : CompiledUnit}
    (hread : (parseStatements src).clean? = some unit)
    (hunit : (h.session.compile src .statements mode).outcome = .unit u) (limits : RunLimits) :
    h.session.evaluate limits src unit = some (((h.compile src .statements mode).run u limits).session,
      (h.compile src .statements mode).outcome u limits) := by
  have hcompile : h.session.compile src .statements mode =
      h.session.bind src .statements (Bind.statementUnit unit) := by
    unfold Parsed.clean? at hread
    unfold Session.compile Session.bindParsed
    split at hread
    · cases hread
    · next hclean => rw [if_neg hclean, hread]
  rw [hcompile] at hunit
  simp only [Session.evaluate, hunit, run, outcome, compile, hcompile]
  rfl

/-- Splitting a chunk does not change its meaning. Statements that declare no registered name again
and end well as one chunk also end well as two, one after the other. Together the two chunks write the
same output, the second one has the same result, and the session that they leave has the same types,
the same variables in the same order and the same values in storage. -/
theorem Reachable.evaluates_in_parts (hr : h.Reachable) {limits : RunLimits} {src : Source}
    {xs ys : List Stmt} {span : Span} {s' : Session} {o : Machine.Outcome} {v : Option Value}
    (hys : ys ≠ [])
    (hfresh : ∀ x ∈ h.session.unitVariables ⟨xs ++ ys, span⟩, h.session.registry.lookup x.name = none)
    (heval : h.session.evaluate limits src ⟨xs ++ ys, span⟩ = some (s', o))
    (hok : o.result = .ok v) (src₁ src₂ : Source) (span₁ span₂ : Span) :
    ∃ s₁ o₁ s₂ o₂, h.session.evaluate limits src₁ ⟨xs, span₁⟩ = some (s₁, o₁) ∧
      s₁.evaluate limits src₂ ⟨ys, span₂⟩ = some (s₂, o₂) ∧
      (∃ v₁, o₁.result = .ok v₁) ∧ o₂.result = .ok v ∧ o.out = o₁.out ++ o₂.out ∧
      s₂.image = s'.image ∧ s₂.registry = s'.registry ∧ s₂.store = s'.store := by
  have hs := hr.valid.session
  obtain ⟨body, b, hwhole, rfl⟩ := Session.Evaluates.of_evaluate hs hfresh heval
  obtain ⟨first, t, o₁, second, t', o₂, h₁, h₂, hok₁, hok₂, hout, hstore, hadded⟩ :=
    hwhole.parts hs hys hok
  have hs₁ := h₁.valid_after hs
  refine ⟨_, o₁, _, o₂, h₁.evaluate hs src₁ span₁, h₂.evaluate hs₁ src₂ span₂, hok₁, hok₂, hout, ?_, ?_,
    hstore.symm⟩
  · have hleft : (h.session.commit b).image = h.session.image :=
      Session.commit_image (hwhole.hosted hs)
    have hfirst : (h.session.commit t).image = h.session.image := Session.commit_image (h₁.hosted hs)
    exact (Session.commit_image (h₂.hosted hs₁)).trans (hfirst.trans hleft.symm)
  · change (Session.registerAll t'.newVariables (Session.registerAll t.newVariables _ t.store).1 t'.store).1 =
      (Session.registerAll b.newVariables _ b.store).1
    rw [hadded]
    exact Session.registerAll_append.symm

/-- Four statements, the last two of which use variables of the first two. -/
def answerText : Source :=
  ⟨"test", "int x = 20; y = x + 1; System.Console.Write(y); y * 2"⟩

def answer : StatementUnit := ((parseStatements answerText).clean?).getD ⟨[], default⟩

def shallow : RunLimits := ⟨4, none, 8⟩

/-- The text compiled and run as one chunk. -/
def answerRun : Option Machine.Outcome :=
  ((blank.session.compile answerText .statements .silent).outcome.unit?).map fun u =>
    (blank.compile answerText .statements .silent).outcome u shallow

theorem answer_checked :
    (parseStatements answerText).clean?.isSome = true ∧ (answer.stmts.drop 2).isEmpty = false ∧
    (∀ x ∈ blank.session.unitVariables ⟨answer.stmts.take 2 ++ answer.stmts.drop 2, answer.span⟩,
      blank.session.registry.lookup x.name = none) ∧
    answerRun.any (fun o => o.out == "21" && o.result.toOption == some (some (.int 42))) = true := by
  decide +kernel

/-- The whole text is compiled to a unit whose run prints a number and ends with its double. -/
theorem answer_evaluates : ∃ u s' o,
    (blank.session.compile answerText .statements .silent).outcome = .unit u ∧
    (blank.compile answerText .statements .silent).outcome u shallow = o ∧
    blank.session.evaluate shallow answerText
      ⟨answer.stmts.take 2 ++ answer.stmts.drop 2, answer.span⟩ = some (s', o) ∧
    o.result = .ok (some (.int 42)) ∧ o.out = "21" := by
  obtain ⟨hsome, -, -, hrun⟩ := answer_checked
  obtain ⟨o, hmap, ho⟩ := (Option.any_eq_true _ _).mp hrun
  obtain ⟨u, hu, rfl⟩ := Option.map_eq_some_iff.mp hmap
  have hunit := CompileOutcome.unit?_eq_some.mp hu
  have hread : (parseStatements answerText).clean? = some answer := by
    obtain ⟨unit, hread⟩ := Option.isSome_iff_exists.mp hsome
    rw [answer, hread]
    rfl
  have hparts : (⟨answer.stmts.take 2 ++ answer.stmts.drop 2, answer.span⟩ : StatementUnit) =
      answer := by rw [List.take_append_drop]
  have heval := (congrArg (blank.session.evaluate shallow answerText) hparts).trans
    (evaluate_read hread hunit shallow)
  obtain ⟨hout, hresult⟩ := Bool.and_eq_true_iff.mp ho
  refine ⟨u, _, _, hunit, rfl, heval, ?_, eq_of_beq hout⟩
  revert hresult
  cases ((blank.compile answerText .statements .silent).outcome u shallow).result with
  | ok v => exact fun hresult => congrArg _ (Option.some.inj (eq_of_beq hresult))
  | error e => exact fun hresult => by simp [Except.toOption] at hresult

/-- The first two statements as one chunk and the last two as the next one do what the whole text does
when it is compiled and run. -/
theorem evaluates_in_parts_answer : ∃ u s₁ o₁ s₂ o₂,
    (blank.session.compile answerText .statements .silent).outcome = .unit u ∧
    blank.session.evaluate shallow ⟨"test", ""⟩ ⟨answer.stmts.take 2, default⟩ = some (s₁, o₁) ∧
      s₁.evaluate shallow ⟨"test", ""⟩ ⟨answer.stmts.drop 2, default⟩ = some (s₂, o₂) ∧
      o₂.result = .ok (some (.int 42)) ∧ o₁.out ++ o₂.out = "21" ∧
      ((blank.compile answerText .statements .silent).outcome u shallow).out = o₁.out ++ o₂.out := by
  obtain ⟨u, s', o, hunit, hrun, heval, hok, hout⟩ := answer_evaluates
  have hys : answer.stmts.drop 2 ≠ [] := List.isEmpty_eq_false_iff.mp answer_checked.2.1
  obtain ⟨s₁, o₁, s₂, o₂, h₁, h₂, -, hok₂, hboth, -⟩ :=
    (Reachable.start _ : blank.Reachable).evaluates_in_parts hys answer_checked.2.2.1 heval hok
      ⟨"test", ""⟩ ⟨"test", ""⟩ default default
  exact ⟨u, s₁, o₁, s₂, o₂, hunit, h₁, h₂, hok₂, hboth.symm.trans hout, by rw [hrun, hboth]⟩

end History

end Chunkwise
