import Chunkwise.Proofs.Machine.Conduct
import Chunkwise.Proofs.Session.Endings
import Chunkwise.Proofs.Split.Embed

/-!
Lifted code with margins around its state does what the code does without them: one lemma per kind of
code, and the calls by recursion on the levels left. A call has a frame of its own, so the code of
methods need not be lifted.
-/
namespace Chunkwise.Machine

open Run

/-- Calls of methods that mention no slot beyond the first `n`. -/
structure Calls.Embeds (n : Nat) (calls : Calls) : Prop where
  invoke : ∀ (g : Margins) (z : RunState.Shape) (x : Method) (o : Option ObjectRef) (args : List Value),
    z.slots = n → x.Within n → Run.Embeds g z Eq (calls.invoke x o args) (calls.invoke x o args)
  create : ∀ (g : Margins) (z : RunState.Shape) (p : Path) (i : Option Nat) (args : List Value),
    z.slots = n → Run.Embeds g z Eq (calls.create p i args) (calls.create p i args)

variable {env : Env} {calls : Calls} {limit : Nat} {g : Margins} {z : RunState.Shape}

theorem findMethod_embeds (him : env.image.Within z.slots) (ref : MethodRef) :
    Embeds g z (fun a b => a = b ∧ b.Within z.slots) (findMethod env ref) (findMethod env ref) := by
  unfold findMethod
  cases hm : method? env.image ref with
  | none => exact Embeds.stop
  | some x =>
    refine Embeds.pure ⟨rfl, ?_⟩
    cases ref with
    | member type i =>
      obtain ⟨d, hd, hi⟩ := Option.bind_eq_some_iff.mp hm
      exact (him type d hd).methods x (List.mem_of_getElem? hi)
    | helper i => exact Builtin.helpers_within _ x (List.mem_of_getElem? hm)

theorem findImplementation_embeds (him : env.image.Within z.slots) (o : ObjectRef) (wanted : Method) :
    Embeds g z (fun a b => a = b ∧ b.Within z.slots) (findImplementation env o wanted)
      (findImplementation env o wanted) := by
  unfold findImplementation
  cases hm : (env.image.typeDef? o.type).bind fun d => d.implementation? wanted with
  | none => exact Embeds.stop
  | some x =>
    refine Embeds.pure ⟨rfl, ?_⟩
    obtain ⟨d, hd, hi⟩ := Option.bind_eq_some_iff.mp hm
    exact (him o.type d hd).methods x (List.mem_of_find?_eq_some hi)

mutual

theorem eval_embeds (hc : calls.Embeds z.slots) (him : env.image.Within z.slots) :
    ∀ e : BoundExpr, e.Within z.locals z.slots →
      Embeds g z Eq (eval env calls (e.lift g.front.size)) (eval env calls e)
  | .const v, _ => by
    rw [BoundExpr.lift, eval]
    exact Embeds.pure rfl
  | .load p, hp => by
    rw [BoundExpr.lift, eval, eval]
    exact (locate_embeds hc him p hp).bind fun _ _ hl => load_embeds hl
  | .thisRef, _ => by
    rw [BoundExpr.lift, eval]
    exact Embeds.gets fun _ _ => rfl
  | .assign p e, ⟨hp, he⟩ => by
    rw [BoundExpr.lift, eval, eval]
    refine (locate_embeds hc him p hp).bind fun l l' hl => ?_
    refine (eval_embeds hc him e he).bindSame fun v => ?_
    exact (save_embeds hl v).bindSame fun _ => Embeds.pure rfl
  | .compound p op e, ⟨hp, he⟩ => by
    rw [BoundExpr.lift, eval, eval]
    refine (locate_embeds hc him p hp).bind fun l l' hl => ?_
    refine (load_embeds hl).bindSame fun old => ?_
    refine (eval_embeds hc him e he).bindSame fun v => ?_
    refine Embeds.ofExcept.bindSame fun new => ?_
    exact (save_embeds hl new).bindSame fun _ => Embeds.pure rfl
  | .step p op leading kind, hp => by
    rw [BoundExpr.lift, eval, eval]
    refine (locate_embeds hc him p hp).bind fun l l' hl => ?_
    refine (load_embeds hl).bindSame fun old => ?_
    refine Embeds.ofExcept.bindSame fun new => ?_
    exact (save_embeds hl new).bindSame fun _ => Embeds.pure rfl
  | .neg kind e, he => by
    rw [BoundExpr.lift, eval, eval]
    refine (eval_embeds hc him e he).bindSame fun v => ?_
    exact Embeds.ofExcept
  | .not e, he => by
    rw [BoundExpr.lift, eval, eval]
    exact (eval_embeds hc him e he).bindSame fun v => Embeds.pure rfl
  | .binary op l r, ⟨hl, hr⟩ => by
    rw [BoundExpr.lift, eval, eval]
    refine (eval_embeds hc him l hl).bindSame fun a => ?_
    refine (eval_embeds hc him r hr).bindSame fun b => ?_
    exact Embeds.ofExcept
  | .both l r, ⟨hl, hr⟩ => by
    rw [BoundExpr.lift, eval, eval]
    refine (eval_embeds hc him l hl).bindSame fun a => ?_
    split
    · exact (eval_embeds hc him r hr).bindSame fun b => Embeds.pure rfl
    · exact Embeds.pure rfl
  | .either l r, ⟨hl, hr⟩ => by
    rw [BoundExpr.lift, eval, eval]
    refine (eval_embeds hc him l hl).bindSame fun a => ?_
    split
    · exact Embeds.pure rfl
    · exact (eval_embeds hc him r hr).bindSame fun b => Embeds.pure rfl
  | .coalesce l r, ⟨hl, hr⟩ => by
    rw [BoundExpr.lift, eval, eval]
    refine (eval_embeds hc him l hl).bindSame fun a => ?_
    split
    · exact eval_embeds hc him r hr
    · exact Embeds.pure rfl
  | .cond c l r, ⟨hcond, hl, hr⟩ => by
    rw [BoundExpr.lift, eval, eval]
    refine (eval_embeds hc him c hcond).bindSame fun a => ?_
    split
    · exact eval_embeds hc him l hl
    · exact eval_embeds hc him r hr
  | .callStatic ref args, hargs => by
    rw [BoundExpr.lift, eval, eval]
    refine (evalAll_embeds hc him args hargs).bindSame fun vs => ?_
    refine (findMethod_embeds him ref).bind fun x x' hx => ?_
    obtain ⟨rfl, hx⟩ := hx
    exact hc.invoke g z x none vs rfl hx
  | .callDirect target ref args, ⟨ht, hargs⟩ => by
    rw [BoundExpr.lift, eval, eval]
    refine (eval_embeds hc him target ht).bindSame fun v => ?_
    refine Embeds.ofExcept.bindSame fun o => ?_
    refine (evalAll_embeds hc him args hargs).bindSame fun vs => ?_
    refine (findMethod_embeds him ref).bind fun x x' hx => ?_
    obtain ⟨rfl, hx⟩ := hx
    exact hc.invoke g z x (some o) vs rfl hx
  | .callVirtual target ref args, ⟨ht, hargs⟩ => by
    rw [BoundExpr.lift, eval, eval]
    refine (eval_embeds hc him target ht).bindSame fun v => ?_
    refine Embeds.ofExcept.bindSame fun o => ?_
    refine (evalAll_embeds hc him args hargs).bindSame fun vs => ?_
    refine (findMethod_embeds him ref).bind fun x x' hx => ?_
    obtain ⟨rfl, -⟩ := hx
    refine (findImplementation_embeds him o x).bind fun y y' hy => ?_
    obtain ⟨rfl, hy⟩ := hy
    exact hc.invoke g z y (some o) vs rfl hy
  | .new p i args, hargs => by
    rw [BoundExpr.lift, eval, eval]
    refine (evalAll_embeds hc him args hargs).bindSame fun vs => ?_
    exact hc.create g z p i vs rfl
  | .toText e, he => by
    rw [BoundExpr.lift, eval, eval]
    refine (eval_embeds hc him e he).bindSame fun v => ?_
    exact Embeds.ofExcept
  | .textLength e, he => by
    rw [BoundExpr.lift, eval, eval]
    refine (eval_embeds hc him e he).bindSame fun v => ?_
    exact Embeds.ofExcept
  | .widen e, he => by
    rw [BoundExpr.lift, eval, eval]
    exact (eval_embeds hc him e he).bindSame fun v => Embeds.pure rfl

theorem evalAll_embeds (hc : calls.Embeds z.slots) (him : env.image.Within z.slots) :
    ∀ es : List BoundExpr, BoundExpr.AllWithin z.locals z.slots es →
      Embeds g z Eq (evalAll env calls (BoundExpr.liftAll g.front.size es)) (evalAll env calls es)
  | [], _ => by
    rw [BoundExpr.liftAll, evalAll]
    exact Embeds.pure rfl
  | e :: es, ⟨he, hes⟩ => by
    rw [BoundExpr.liftAll, evalAll, evalAll]
    refine (eval_embeds hc him e he).bindSame fun v => ?_
    exact (evalAll_embeds hc him es hes).bindSame fun vs => Embeds.pure rfl

theorem locate_embeds (hc : calls.Embeds z.slots) (him : env.image.Within z.slots) :
    ∀ p : Place, p.Within z.locals z.slots →
      Embeds g z (Location.Lifted g.front.size z.locals z.slots)
        (locate env calls (p.lift g.front.size)) (locate env calls p)
  | .frame i, hp => by
    rw [Place.lift, locate, locate]
    exact Embeds.pure ⟨rfl, hp⟩
  | .static slot, hp => by
    rw [Place.lift, locate]
    exact Embeds.pure ⟨rfl, hp⟩
  | .field target i, hp => by
    rw [Place.lift, locate, locate]
    refine (eval_embeds hc him target hp).bindSame fun v => ?_
    exact Embeds.ofExcept.bindSame fun o => Embeds.pure ⟨rfl, trivial⟩

end

theorem rounds_embeds {round round' : Run (Option Flow)} (h : Embeds g z Eq round round') (n : Nat) :
    Embeds g z Eq (rounds round n) (rounds round' n) := by
  induction n with
  | zero => exact Embeds.stop
  | succ n ih =>
    rw [rounds, rounds]
    refine h.bindSame fun flow? => ?_
    cases flow? with
    | none => exact ih
    | some flow => exact Embeds.pure rfl

theorem test_embeds (hc : calls.Embeds z.slots) (him : env.image.Within z.slots) (e : Option BoundExpr)
    (he : ∀ x, e = some x → x.Within z.locals z.slots) :
    Embeds g z Eq (test env calls (e.map (BoundExpr.lift g.front.size))) (test env calls e) := by
  cases e with
  | none => exact Embeds.pure rfl
  | some e =>
    exact (eval_embeds hc him e (he e rfl)).bindSame fun v => Embeds.pure rfl

/-- What is recorded as the result counts only if the margins say so. -/
theorem capture_embeds (hc : calls.Embeds z.slots) (him : env.image.Within z.slots) (e : BoundExpr)
    (he : e.Within z.locals z.slots) : Embeds g z Eq
      (exec env calls limit ((BoundStmt.capture e).lift g.front.size g.keeps))
      (exec env calls limit (.capture e)) := by
  rw [BoundStmt.lift]
  cases hk : g.keeps with
  | true =>
    rw [if_pos rfl, exec, exec]
    refine Embeds.poll.bindSame fun _ => (eval_embeds hc him e he).bindSame fun v => ?_
    refine Embeds.bind (Embeds.modify fun s hs => ⟨?_, hs⟩) fun _ _ _ => Embeds.pure rfl
    simp [Margins.around, hk]
  | false =>
    rw [if_neg (by simp), exec, exec]
    refine Embeds.poll.bindSame fun _ => (eval_embeds hc him e he).bindSame fun v => ?_
    intro s hs a t hp
    cases hp
    refine ⟨.next, { s with frame := { s.frame with result := some v } }, rfl, rfl, ?_, hs⟩
    simp [Margins.around, hk]

mutual

theorem exec_embeds (hc : calls.Embeds z.slots) (him : env.image.Within z.slots) {captures : Bool} :
    ∀ s : BoundStmt, s.Within z.locals z.slots captures →
      Embeds g z Eq (exec env calls limit (s.lift g.front.size g.keeps)) (exec env calls limit s)
  | .expr e, he => by
    rw [BoundStmt.lift, exec, exec]
    exact Embeds.poll.bindSame fun _ => (eval_embeds hc him e he).bindSame fun _ => Embeds.pure rfl
  | .capture e, he => capture_embeds hc him e he.2
  | .block body, hb => by
    rw [BoundStmt.lift, exec, exec]
    exact Embeds.poll.bindSame fun _ => execAll_embeds hc him body hb
  | .ifElse c yes none, ⟨hcond, hyes⟩ => by
    rw [BoundStmt.lift, exec, exec]
    refine Embeds.poll.bindSame fun _ => (eval_embeds hc him c hcond).bindSame fun v => ?_
    split
    · exact exec_embeds hc him yes hyes
    · exact Embeds.pure rfl
  | .ifElse c yes (some no), ⟨hcond, hyes, hno⟩ => by
    rw [BoundStmt.lift, exec, exec]
    refine Embeds.poll.bindSame fun _ => (eval_embeds hc him c hcond).bindSame fun v => ?_
    split
    · exact exec_embeds hc him yes hyes
    · exact exec_embeds hc him no hno
  | .whileDo c body, ⟨hcond, hbody⟩ => by
    rw [BoundStmt.lift, exec, exec]
    refine Embeds.poll.bindSame fun _ => rounds_embeds (Embeds.poll.bindSame fun _ => ?_) limit
    refine (eval_embeds hc him c hcond).bindSame fun v => ?_
    split
    · exact (exec_embeds hc him body hbody).bindSame fun flow => Embeds.pure rfl
    · exact Embeds.pure rfl
  | .doWhile body c, ⟨hcond, hbody⟩ => by
    rw [BoundStmt.lift, exec, exec]
    refine Embeds.poll.bindSame fun _ => rounds_embeds (Embeds.poll.bindSame fun _ => ?_) limit
    refine (exec_embeds hc him body hbody).bindSame fun flow => ?_
    split
    · exact Embeds.pure rfl
    · refine (eval_embeds hc him c hcond).bindSame fun v => ?_
      split <;> exact Embeds.pure rfl
  | .forLoop init c update body, ⟨hinit, htest, hupdate, hbody⟩ => by
    rw [BoundStmt.lift, exec, exec]
    refine Embeds.poll.bindSame fun _ => (execEach_embeds hc him init hinit).bindSame fun _ => ?_
    refine rounds_embeds (Embeds.poll.bindSame fun _ => ?_) limit
    refine (test_embeds hc him c htest).bindSame fun b => ?_
    split
    · refine (exec_embeds hc him body hbody).bindSame fun flow => ?_
      split
      · exact Embeds.pure rfl
      · exact (evalAll_embeds hc him update hupdate).bindSame fun _ => Embeds.pure rfl
    · exact Embeds.pure rfl
  | .breakLoop, _ => by
    rw [BoundStmt.lift, exec]
    exact Embeds.poll.bindSame fun _ => Embeds.pure rfl
  | .continueLoop, _ => by
    rw [BoundStmt.lift, exec]
    exact Embeds.poll.bindSame fun _ => Embeds.pure rfl
  | .returnValue none, _ => by
    rw [BoundStmt.lift, Option.map_none, exec]
    exact Embeds.poll.bindSame fun _ => Embeds.pure rfl
  | .returnValue (some e), he => by
    rw [BoundStmt.lift, Option.map_some, exec, exec]
    exact Embeds.poll.bindSame fun _ => (eval_embeds hc him e he).bindSame fun v => Embeds.pure rfl
  | .throwValue e, he => by
    rw [BoundStmt.lift, exec, exec]
    exact Embeds.poll.bindSame fun _ => (eval_embeds hc him e he).bindSame fun _ => Embeds.stop

theorem execAll_embeds (hc : calls.Embeds z.slots) (him : env.image.Within z.slots) {captures : Bool} :
    ∀ ss : List BoundStmt, BoundStmt.AllWithin z.locals z.slots captures ss →
      Embeds g z Eq (execAll env calls limit (BoundStmt.liftAll g.front.size g.keeps ss))
        (execAll env calls limit ss)
  | [], _ => by
    rw [BoundStmt.liftAll, execAll]
    exact Embeds.pure rfl
  | s :: rest, ⟨hs, hrest⟩ => by
    rw [BoundStmt.liftAll, execAll, execAll]
    refine (exec_embeds hc him s hs).bindSame fun flow => ?_
    cases flow with
    | next => exact execAll_embeds hc him rest hrest
    | out | again | returned v => exact Embeds.pure rfl

theorem execEach_embeds (hc : calls.Embeds z.slots) (him : env.image.Within z.slots) {captures : Bool} :
    ∀ ss : List BoundStmt, BoundStmt.AllWithin z.locals z.slots captures ss →
      Embeds g z Eq (execEach env calls limit (BoundStmt.liftAll g.front.size g.keeps ss))
        (execEach env calls limit ss)
  | [], _ => by
    rw [BoundStmt.liftAll, execEach]
    exact Embeds.pure rfl
  | s :: rest, ⟨hs, hrest⟩ => by
    rw [BoundStmt.liftAll, execEach, execEach]
    exact (exec_embeds hc him s hs).bindSame fun _ => execEach_embeds hc him rest hrest

end

theorem native_embeds {im : Image} {n : Native} {args : List Value} :
    Embeds g z Eq (native im n args) (native im n args) := by
  cases n with
  | writeLine | writeBlankLine | write =>
    exact (Embeds.print _).bindSame fun _ => Embeds.pure rfl
  | _ => exact Embeds.pure rfl

theorem locals_le_frameOf (code : Code) (o : Option ObjectRef) (args : List Value) :
    code.locals ≤ (frameOf code o args).locals.size := by
  simp only [frameOf, List.size_toArray, List.length_append, List.length_replicate]
  omega

theorem runBody_embeds (hc : calls.Embeds z.slots) (him : env.image.Within z.slots) {x : Method}
    (hx : x.Within z.slots) (o : Option ObjectRef) (args : List Value) :
    Embeds g z Eq (runBody env limit calls x o args) (runBody env limit calls x o args) := by
  unfold runBody
  cases hbody : x.body with
  | code code =>
    have hwithin := hx code hbody _ (locals_le_frameOf code o args)
    have hrun : Embeds g.called (z.inFrame (frameOf code o args)) Eq
        (execAll env calls limit (BoundStmt.liftAll 0 true code.body))
        (execAll env calls limit code.body) :=
      execAll_embeds (z := z.inFrame (frameOf code o args)) hc him code.body hwithin
    rw [BoundStmt.liftAll_zero] at hrun
    exact (hrun.inFrame _).bindSame fun flow => Embeds.pure rfl
  | native n => exact native_embeds
  | abstractMember | missing => exact Embeds.stop

theorem newObject_embeds (p : Path) (d : TypeDef) :
    Embeds g z Eq (newObject env p d) (newObject env p d) := by
  intro s hs o t hrun
  cases hrun
  exact ⟨_, { s with store := (s.store.addObject p (defaultFields env.image d)).2 }, rfl, rfl, rfl, hs⟩

theorem initFields_embeds (hc : calls.Embeds z.slots) (him : env.image.Within z.slots) (o : ObjectRef)
    {inits : List (Nat × BoundExpr)} (h : ∀ x ∈ inits, x.2.Within z.locals z.slots)
    (hfront : g.front = #[]) :
    Embeds g z Eq (initFields env calls o inits) (initFields env calls o inits) := by
  induction inits with
  | nil => exact Embeds.pure rfl
  | cons x rest ih =>
    obtain ⟨i, e⟩ := x
    have he := eval_embeds (g := g) hc him e (h (i, e) (by simp))
    rw [hfront, List.size_toArray, List.length_nil, e.lift_zero] at he
    refine he.bindSame fun v => ?_
    have hplace : (Location.field o i).Lifted g.front.size z.locals z.slots (.field o i) := ⟨rfl, trivial⟩
    refine (save_embeds hplace v).bindSame fun _ => ?_
    exact ih fun y hy => h y (List.mem_cons_of_mem _ hy)

theorem build_embeds (hc : calls.Embeds z.slots) (him : env.image.Within z.slots) (p : Path)
    (i : Option Nat) (args : List Value) :
    Embeds g z Eq (build env calls p i args) (build env calls p i args) := by
  unfold build
  cases hd : env.image.typeDef? p with
  | none => exact Embeds.stop
  | some d =>
    refine (newObject_embeds p d).bindSame fun o => ?_
    have hinits : Embeds g.called (z.inFrame (Frame.ofSize 0 (some o))) Eq
        (initFields env calls o d.inits) (initFields env calls o d.inits) :=
      initFields_embeds (z := z.inFrame (Frame.ofSize 0 (some o))) hc him o (him p d hd).inits rfl
    refine (hinits.inFrame _).bindSame fun _ => ?_
    cases hi : i.bind fun i => d.constructors[i]? with
    | none => exact Embeds.pure rfl
    | some x =>
      obtain ⟨j, -, hj⟩ := Option.bind_eq_some_iff.mp hi
      have hx := (him p d hd).constructors x (List.mem_of_getElem? hj)
      exact (hc.invoke g z x (some o) args rfl hx).bindSame fun _ => Embeds.pure rfl

theorem calls_embeds {n : Nat} (him : env.image.Within n) (limit room : Nat) :
    Calls.Embeds n ⟨invoke env limit room, create env limit room⟩ := by
  induction room with
  | zero => exact ⟨fun _ _ _ _ _ _ _ => Embeds.stop, fun _ _ _ _ _ _ => Embeds.stop⟩
  | succ room ih =>
    refine ⟨fun g z x o args hz hx => ?_, fun g z p i args hz => ?_⟩
    · subst hz
      exact (runBody_embeds (z := { z with depth := z.depth + 1 }) ih him hx o args).deeper
    · subst hz
      exact (build_embeds (z := { z with depth := z.depth + 1 }) ih him p i args).deeper

theorem Outcome.ofExec_ok {r : Except Stop Flow × RunState} {v : Option Value}
    (h : (Outcome.ofExec r).result = .ok v) : ∃ flow m, r = (.ok flow, m) ∧ m.frame.result = v := by
  rcases r with ⟨e | flow, m⟩
  · cases h
  · exact ⟨flow, m, rfl, Except.ok.inj h⟩

/-- The first part of the code ran with the locals and slots of the second part behind its own. -/
theorem run_first {first : List BoundStmt} {store : Store} {extra : Array Slot} {n k : Nat}
    (him : env.image.Within store.slots.size)
    (hfirst : BoundStmt.AllWithin n store.slots.size true first) {flow : Flow} {m : RunState}
    (hrun : execAll env (topCalls env limit) limit (BoundStmt.liftAll 0 false first)
      (startState ⟨store.slots ++ extra, store.heap⟩ (n + k)) = (.ok flow, m)) :
    ∃ s, execAll env (topCalls env limit) limit first (startState store n) = (.ok flow, s) ∧
      m = (⟨#[], Array.replicate k .null, extra, "", 0, false⟩ : Margins).around s ∧
      s.shape = ⟨n, store.slots.size, 0, none⟩ := by
  let g : Margins := ⟨#[], Array.replicate k .null, extra, "", 0, false⟩
  have hstart : startState ⟨store.slots ++ extra, store.heap⟩ (n + k) = g.around (startState store n) := by
    simp [startState, Margins.around, g, Frame.ofSize]
  have hshape : (startState store n).shape = ⟨n, store.slots.size, 0, none⟩ := by
    simp [startState, RunState.shape, Frame.ofSize]
  rw [hstart] at hrun
  obtain ⟨flow', s, hs, rfl, hm, hz⟩ := execAll_embeds (g := g)
    (z := ⟨n, store.slots.size, 0, none⟩) (calls_embeds him limit _) him first hfirst
    (startState store n) hshape flow m hrun
  exact ⟨s, hs, hm, hz⟩

/-- The second part of the code ran behind the locals that the first part has left. -/
theorem run_second {second : List BoundStmt} {s : RunState} {extra : Array Slot} {n k size : Nat}
    (hshape : s.shape = ⟨n, size, 0, none⟩) (him : env.image.Within (size + extra.size))
    (hsecond : BoundStmt.AllWithin k (size + extra.size) true second) {flow : Flow} {m : RunState}
    (hrun : execAll env (topCalls env limit) limit (BoundStmt.liftAll n true second)
      ((⟨#[], Array.replicate k .null, extra, "", 0, false⟩ : Margins).around s) = (.ok flow, m)) :
    ∃ t, execAll env (topCalls env limit) limit second
        (startState ⟨s.store.slots ++ extra, s.store.heap⟩ k) = (.ok flow, t) ∧
      m.frame.result = t.frame.result ∧ m.out = s.out ++ t.out ∧ m.store = t.store := by
  let g : Margins := ⟨s.frame.locals, #[], #[], s.out, s.polls, true⟩
  have hlocals : s.frame.locals.size = n := congrArg RunState.Shape.locals hshape
  have hslots : s.store.slots.size = size := congrArg RunState.Shape.slots hshape
  have hdepth : s.depth = 0 := congrArg RunState.Shape.depth hshape
  have hself : s.frame.thisObject = none := congrArg RunState.Shape.self hshape
  have hstart : (⟨#[], Array.replicate k .null, extra, "", 0, false⟩ : Margins).around s =
      g.around (startState ⟨s.store.slots ++ extra, s.store.heap⟩ k) := by
    simp [startState, Margins.around, g, Frame.ofSize, hdepth, hself]
  have hshape' : (startState ⟨s.store.slots ++ extra, s.store.heap⟩ k).shape =
      ⟨k, size + extra.size, 0, none⟩ := by
    simp [startState, RunState.shape, Frame.ofSize, hslots]
  rw [hstart, ← hlocals] at hrun
  obtain ⟨flow', t, ht, rfl, rfl, -⟩ := execAll_embeds (g := g)
    (z := ⟨k, size + extra.size, 0, none⟩) (calls_embeds him limit _) him second hsecond _ hshape'
    flow m hrun
  refine ⟨t, ht, rfl, rfl, ?_⟩
  simp [Margins.around, g]

/-- A run that ends well can be made in two parts, each the run of a unit of its own. -/
theorem run_parts {first second : List BoundStmt} {store : Store} {extra : Array Slot} {n k : Nat}
    (him : env.image.Within store.slots.size)
    (him' : env.image.Within (store.slots.size + extra.size))
    (hfirst : BoundStmt.AllWithin n store.slots.size true first)
    (hsecond : BoundStmt.AllWithin k (store.slots.size + extra.size) true second) {body : List BoundStmt}
    (hbody : body = BoundStmt.liftAll 0 false first ++ BoundStmt.liftAll n true second)
    (hends : Ends (execAll env (topCalls env limit) limit body) (· = .next)) {o : Outcome}
    {v : Option Value} (hrun : run env limit ⟨store.slots ++ extra, store.heap⟩ ⟨body, n + k⟩ = o)
    (hok : o.result = .ok v) :
    ∃ o₁ o₂, run env limit store ⟨first, n⟩ = o₁ ∧
      run env limit ⟨o₁.store.slots ++ extra, o₁.store.heap⟩ ⟨second, k⟩ = o₂ ∧
      (∃ v₁, o₁.result = .ok v₁) ∧ o₂.result = .ok v ∧ o.out = o₁.out ++ o₂.out ∧
      o.store = o₂.store := by
  subst hbody hrun
  rw [run_eq] at hok
  obtain ⟨flow, m, hexec, hv⟩ := Outcome.ofExec_ok hok
  obtain rfl := hends _ flow m hexec
  have hwhole : run env limit ⟨store.slots ++ extra, store.heap⟩
      ⟨BoundStmt.liftAll 0 false first ++ BoundStmt.liftAll n true second, n + k⟩ =
        .ofExec (.ok .next, m) := by rw [run_eq, hexec]
  rw [hwhole]
  rw [execAll_append] at hexec
  rcases hleft : execAll env (topCalls env limit) limit (BoundStmt.liftAll 0 false first)
    (startState ⟨store.slots ++ extra, store.heap⟩ (n + k)) with ⟨e | flow, m₁⟩
  · simp [hleft] at hexec
  cases flow with
  | out | again | returned _ => simp [hleft] at hexec
  | next =>
    simp only [hleft] at hexec
    obtain ⟨s, hs, rfl, hshape⟩ := run_first him hfirst hleft
    obtain ⟨t, ht, hresult, hout, hstore⟩ := run_second hshape him' hsecond hexec
    have hrun₁ : run env limit store ⟨first, n⟩ = .ofExec (.ok .next, s) := by rw [run_eq, hs]
    have hrun₂ : run env limit ⟨s.store.slots ++ extra, s.store.heap⟩ ⟨second, k⟩ =
        .ofExec (.ok .next, t) := by rw [run_eq, ht]
    refine ⟨_, _, hrun₁, hrun₂, ⟨s.frame.result, rfl⟩, ?_, hout, hstore⟩
    exact congrArg Except.ok (hresult.symm.trans hv)

end Chunkwise.Machine
