import Chunkwise.Proofs.Machine.Bounded

/-!
Code without loops always ends, since calls nest at most as deep as the environment allows. The depth
is back where it was after whatever is evaluated, and a run overflows exactly when it attempts a call
at the greatest depth and the poll of this call does not read as cancelled.

Which calls a run attempts is read off the run itself: it attempts a call in a state if another
answer to this call in this state would have made it another run.
-/
namespace Chunkwise

/-- What code comes to call, by itself or through what it calls. -/
inductive Code.Reaches (im : Image) (code : Code) : Callee → Prop
  | direct {c : Callee} (mem : c ∈ BoundStmt.calleesOfAll code.body) : Code.Reaches im code c
  | body {c c' : Callee} {m : Method} {inner : Code} (reached : Code.Reaches im code c)
      (runs : Machine.Runs im c m) (body : m.body = .code inner)
      (mem : c' ∈ BoundStmt.calleesOfAll inner.body) : Code.Reaches im code c'
  | initial {type : Path} {constructor : Option Nat} {d : TypeDef} {x : Nat × BoundExpr} {c : Callee}
      (reached : Code.Reaches im code (.object type constructor))
      (declared : im.typeDef? type = some d) (mem : x ∈ d.inits) (calls : c ∈ x.2.callees) :
      Code.Reaches im code c

/-- Neither the code nor any body that it comes to run has a loop. -/
structure Code.LoopFree (im : Image) (code : Code) : Prop where
  own : BoundStmt.anyHasLoop code.body = false
  bodies : ∀ {c m inner}, code.Reaches im c → Machine.Runs im c m → m.body = .code inner →
    BoundStmt.anyHasLoop inner.body = false

namespace Machine

open Run

variable {α β : Type} {env : Env} {limit : Nat} {store : Store} {code : Code}

theorem run_of_loopFree (h : code.LoopFree env.image) :
    ∃ o, o.result ≠ .error .unfinished ∧ ∀ limit, run env limit store code = o := by
  have hstays : env.image.Stays (code.Reaches env.image) False :=
    ⟨fun hc hm hbody => ⟨fun _ hmem => .body hc hm hbody hmem,
      fun hloop => by simp [h.bodies hc hm hbody] at hloop⟩,
     fun hc hd x hx c hmem => .initial hc hd hx hmem⟩
  have hcode : code.Stays (code.Reaches env.image) False :=
    ⟨fun _ hmem => .direct hmem, fun hloop => by simp [h.own] at hloop⟩
  have hends : (run env 0 store code).result ≠ .error .unfinished := fun hstop =>
    (run_spends hstays hcode hstop).1
  exact ⟨_, hends, fun limit => run_eq_of_le (Nat.zero_le limit) hends⟩

/-- A call as it is handed over. -/
inductive Call where
  | invoke (method : Method) (thisObject : Option ObjectRef) (args : List Value)
  | create (type : Path) (constructor : Option Nat) (args : List Value)

def Calls.answer (calls : Calls) : Call → Run Value
  | .invoke m o args => calls.invoke m o args
  | .create type constructor args => calls.create type constructor args

/-- What a call does once it has entered its level. -/
def Call.body (env : Env) (limit : Nat) (calls : Calls) : Call → Run Value
  | .invoke m o args => runBody env limit calls m o args
  | .create type constructor args => build env calls type constructor args

theorem answer_callsAt (c : Call) (room : Nat) : (callsAt env limit (room + 1)).answer c =
    Run.deeper env (c.body env limit (callsAt env limit room)) := by
  cases c <;> rfl

theorem Conduct.body {ι : Type} {env : ι → Env} {limit : ι → Nat} {im : Image}
    {C : {α : Type} → (ι → Run α) → Prop} {calls : ι → Calls} (h : Conduct env limit im True C)
    (hc : Calls.Conduct C im calls fun _ => True) (c : Call) :
    C fun i => c.body (env i) (limit i) (calls i) := by
  cases c with
  | invoke m o args => exact h.runBody hc (fun _ _ => ⟨fun _ _ => trivial, fun _ => trivial⟩) o args
  | create type constructor args => exact h.build hc trivial (fun _ _ _ _ _ _ => trivial) args

theorem body_balanced (c : Call) (room : Nat) :
    Balanced (c.body env limit (callsAt env limit room)) :=
  (balanced_conduct env limit).body (callsAt_balanced env limit room) c

theorem answer_balanced (c : Call) (room : Nat) : Balanced ((callsAt env limit room).answer c) := by
  cases room with
  | zero => cases c <;> exact fun _ => rfl
  | succ room =>
    rw [answer_callsAt, deeper_eq]
    exact (balanced_poll env).bind fun _ => (body_balanced c room).entered _

/-- Calls that answer alike, but perhaps for one call in one state. -/
def AgreeBut (calls calls' : Calls) (c : Call) (t : RunState) : Prop :=
  ∀ c' t', (c', t') ≠ (c, t) → calls.answer c' t' = calls'.answer c' t'

/-- A computation makes a call in a state if another answer to it there changes the computation. -/
def Makes (p : Calls → Run α) (calls : Calls) (s : RunState) (c : Call) (t : RunState) : Prop :=
  ∃ calls', AgreeBut calls calls' c t ∧ p calls' s ≠ p calls s

/-- The calls that a run attempts: those that the code of the unit makes, and those made by the bodies
of attempted calls that are neither cancelled nor too deep. -/
inductive Attempted (env : Env) (limit : Nat) (store : Store) (code : Code) :
    Call → RunState → Prop
  | unit {c : Call} {t : RunState}
      (makes : Makes (fun calls => execAll env calls limit code.body)
        (callsAt env limit (env.maxDepth + 1)) (startState store code.locals) c t) :
      Attempted env limit store code c t
  | inner {c c' : Call} {t t' : RunState} (attempted : Attempted env limit store code c t)
      (passes : ¬Env.Cancelled env t.polls) (room : t.depth < env.maxDepth)
      (makes : Makes (fun calls => c.body env limit calls) (callsAt env limit (env.maxDepth - t.depth))
        { t with polls := t.polls + 1, depth := t.depth + 1 } c' t') :
      Attempted env limit store code c' t'

/-- How a computation depends on its calls: an error that a call it makes ends with is its own, and
where it overflows, a call that it makes has. -/
structure Asks (p : Calls → Run α) : Prop where
  fails : ∀ {calls calls' c t e}, AgreeBut calls calls' c t → (calls.answer c t).1 = .error e →
    ∀ s, p calls s = p calls' s ∨ (p calls s).1 = .error e
  overflow : ∀ {calls s n}, (p calls s).1 = .error (.fault (.stackOverflow n)) →
    ∃ c t, (calls.answer c t).1 = .error (.fault (.stackOverflow n)) ∧
      ∀ {calls' e}, AgreeBut calls' calls c t → (calls'.answer c t).1 = .error e →
        (p calls' s).1 = .error e

namespace Asks

theorem of_constant {p : Run α} (h : ∀ s n, (p s).1 ≠ .error (.fault (.stackOverflow n))) :
    Asks fun _ => p :=
  ⟨fun _ _ _ => .inl rfl, fun {_ s n} he => absurd he (h s n)⟩

theorem of_step {p : Run α} (h : Step p) : Asks fun _ => p := by
  refine of_constant fun s n he => ?_
  rcases hs : p s with ⟨e | a, s'⟩
  · rw [hs] at he
    cases he
    exact (h.error s _ s' hs).2
  · rw [hs] at he
    cases he

theorem poll (env : Env) : Asks fun _ => Run.poll env := by
  refine of_constant fun s n he => ?_
  by_cases hc : Env.Cancelled env s.polls
  · rw [poll_cancelled hc] at he
    cases he
  · rw [poll_passes hc] at he
    cases he

theorem bind {p : Calls → Run α} {f : Calls → α → Run β} (hp : Asks p)
    (hf : ∀ a, Asks fun calls => f calls a) : Asks fun calls => p calls >>= f calls where
  fails {calls calls' c t e} hagree he s := by
    rcases hp.fails hagree he s with heq | herr
    · rcases hs : p calls s with ⟨e' | a, s'⟩
      · left
        rw [bind_error hs, bind_error (heq.symm.trans hs)]
      · rw [bind_ok hs, bind_ok (heq.symm.trans hs)]
        exact (hf a).fails hagree he s'
    · exact .inr (bind_stops herr)
  overflow {calls s n} hover := by
    rcases hs : p calls s with ⟨e' | a, s'⟩
    · rw [bind_error hs] at hover
      have herr : (p calls s).1 = .error (.fault (.stackOverflow n)) := by
        rw [hs]
        exact congrArg _ (Except.error.inj hover)
      obtain ⟨c, t, hanswer, hall⟩ := hp.overflow herr
      exact ⟨c, t, hanswer, fun hagree he => bind_stops (hall hagree he)⟩
    · rw [bind_ok hs] at hover
      obtain ⟨c, t, hanswer, hall⟩ := (hf a).overflow hover
      refine ⟨c, t, hanswer, fun hagree he => ?_⟩
      rcases hp.fails hagree he s with heq | herr
      · rw [bind_ok (heq.trans hs)]
        exact hall hagree he
      · exact bind_stops herr

theorem inFrame {p : Calls → Run α} (h : Asks p) (frame : Frame) :
    Asks fun calls => Run.inFrame frame (p calls) where
  fails hagree he s := (h.fails hagree he { s with frame }).imp inFrame_congr fun herr => herr
  overflow hover := h.overflow hover

theorem rounds {round : Calls → Run (Option Flow)} (h : Asks round) (n : Nat) :
    Asks fun calls => rounds (round calls) n := by
  induction n with
  | zero => exact of_constant fun s n he => by cases he
  | succ n ih =>
    refine h.bind fun flow? => ?_
    cases flow? with
    | none => exact ih
    | some flow => exact of_step (.pure flow)

theorem answer (c : Call) : Asks fun calls => calls.answer c where
  fails {calls calls' c' t e} hagree he s := by
    by_cases heq : (c, s) = (c', t)
    · cases heq
      exact .inr he
    · exact .inl (hagree c s heq)
  overflow {calls s n} hover := ⟨c, s, hover, fun _ he => he⟩

end Asks

theorem asks_conduct (env : Env) (limit : Nat) :
    Conduct (fun _ : Calls => env) (fun _ => limit) env.image True Asks where
  image _ := rfl
  step h := .of_step h
  bind hp hf := hp.bind hf
  poll := .poll env
  inFrame frame hp := hp.inFrame frame
  rounds _ _ hb := ((Asks.poll env).bind fun _ => hb).rounds limit

theorem asks_calls (im : Image) : Calls.Conduct Asks im (fun calls => calls) fun _ => True :=
  ⟨fun _ _ o args => .answer (.invoke _ o args), fun _ args => .answer (.create _ _ args)⟩

/-- A computation makes calls only at its own level, to which it is back at its end. -/
def StaysLevel (p : Calls → Run α) : Prop :=
  ∀ calls calls', (∀ c, Balanced (calls.answer c)) → ∀ s : RunState,
    (∀ c (t : RunState), t.depth = s.depth → calls.answer c t = calls'.answer c t) →
    p calls' s = p calls s ∧ (p calls s).2.depth = s.depth

namespace StaysLevel

theorem of_balanced {p : Run α} (h : Balanced p) : StaysLevel fun _ => p :=
  fun _ _ _ s _ => ⟨rfl, h s⟩

theorem bind {p : Calls → Run α} {f : Calls → α → Run β} (hp : StaysLevel p)
    (hf : ∀ a, StaysLevel fun calls => f calls a) : StaysLevel fun calls => p calls >>= f calls := by
  intro calls calls' hb s hagree
  obtain ⟨heq, hdepth⟩ := hp calls calls' hb s hagree
  change (p calls' >>= f calls') s = (p calls >>= f calls) s ∧
    ((p calls >>= f calls) s).2.depth = s.depth
  rcases hs : p calls s with ⟨e | a, s'⟩
  · rw [hs] at hdepth
    rw [bind_error hs, bind_error (heq.trans hs)]
    exact ⟨rfl, hdepth⟩
  · rw [hs] at hdepth
    have hs' : s'.depth = s.depth := hdepth
    rw [bind_ok hs, bind_ok (heq.trans hs)]
    obtain ⟨heq', hdepth'⟩ := hf a calls calls' hb s' fun c t ht => hagree c t (ht.trans hs')
    exact ⟨heq', hdepth'.trans hs'⟩

theorem inFrame {p : Calls → Run α} (h : StaysLevel p) (frame : Frame) :
    StaysLevel fun calls => Run.inFrame frame (p calls) := by
  intro calls calls' hb s hagree
  obtain ⟨heq, hdepth⟩ := h calls calls' hb { s with frame } hagree
  exact ⟨inFrame_congr heq, hdepth⟩

theorem rounds {round : Calls → Run (Option Flow)} (h : StaysLevel round) (n : Nat) :
    StaysLevel fun calls => rounds (round calls) n := by
  induction n with
  | zero => exact of_balanced fun _ => rfl
  | succ n ih =>
    refine h.bind fun flow? => ?_
    cases flow? with
    | none => exact ih
    | some flow => exact of_balanced fun _ => rfl

theorem answer (c : Call) : StaysLevel fun calls => calls.answer c :=
  fun _ _ hb s hagree => ⟨(hagree c s rfl).symm, hb c s⟩

end StaysLevel

theorem staysLevel_conduct (env : Env) (limit : Nat) :
    Conduct (fun _ : Calls => env) (fun _ => limit) env.image True StaysLevel where
  image _ := rfl
  step h := .of_balanced (balanced_of_step h)
  bind hp hf := hp.bind hf
  poll := .of_balanced (balanced_poll env)
  inFrame frame hp := hp.inFrame frame
  rounds _ _ hb := ((StaysLevel.of_balanced (balanced_poll env)).bind fun _ => hb).rounds limit

theorem staysLevel_calls (im : Image) :
    Calls.Conduct StaysLevel im (fun calls => calls) fun _ => True :=
  ⟨fun _ _ o args => .answer (.invoke _ o args), fun _ args => .answer (.create _ _ args)⟩

theorem StaysLevel.depth_of_makes {p : Calls → Run α} (h : StaysLevel p) {calls : Calls}
    (hb : ∀ c, Balanced (calls.answer c)) {s t : RunState} {c : Call} (hm : Makes p calls s c t) :
    t.depth = s.depth := by
  obtain ⟨calls', hagree, hne⟩ := hm
  refine Classical.byContradiction fun hdepth =>
    hne (h calls calls' hb s fun c' t' ht' => hagree c' t' ?_).1
  rintro ⟨⟩
  exact hdepth ht'

/-- An error that a call ends with is how the code that makes it ends. -/
theorem Asks.error_of_makes {p : Calls → Run α} (h : Asks p) {calls : Calls} {s t : RunState}
    {c : Call} {e : Stop} (hm : Makes p calls s c t) (he : (calls.answer c t).1 = .error e) :
    (p calls s).1 = .error e := by
  obtain ⟨calls', hagree, hne⟩ := hm
  exact (h.fails hagree he s).resolve_left fun heq => hne heq.symm

open Classical in
/-- Calls that are interrupted at one call in one state. -/
noncomputable def Calls.interruptedAt (calls : Calls) (c : Call) (t : RunState) : Calls where
  invoke m o args s := if (.invoke m o args, s) = (c, t) then (.error .interrupted, s)
    else calls.invoke m o args s
  create type constructor args s :=
    if (.create type constructor args, s) = (c, t) then (.error .interrupted, s)
    else calls.create type constructor args s

theorem answer_interruptedAt (calls : Calls) (c : Call) (t : RunState) :
    AgreeBut (calls.interruptedAt c t) calls c t ∧
      ((calls.interruptedAt c t).answer c t).1 = .error .interrupted := by
  constructor
  · intro c' t' hne
    cases c' <;> exact if_neg hne
  · cases c <;> exact congrArg Prod.fst (if_pos rfl)

theorem Asks.makes_of_overflow {p : Calls → Run α} (h : Asks p) {calls : Calls} {s : RunState}
    {n : Nat} (hover : (p calls s).1 = .error (.fault (.stackOverflow n))) :
    ∃ c t, Makes p calls s c t ∧ (calls.answer c t).1 = .error (.fault (.stackOverflow n)) := by
  obtain ⟨c, t, hanswer, hall⟩ := h.overflow hover
  obtain ⟨hagree, hstop⟩ := answer_interruptedAt calls c t
  refine ⟨c, t, ⟨_, fun c' t' hne => (hagree c' t' hne).symm, fun heq => ?_⟩, hanswer⟩
  have hother := hall hagree hstop
  rw [heq, hover] at hother
  cases hother

theorem execAll_asks (ss : List BoundStmt) : Asks fun calls => execAll env calls limit ss :=
  (asks_conduct env limit).execAll (asks_calls env.image) ss (fun _ _ => trivial) fun _ => trivial

theorem execAll_staysLevel (ss : List BoundStmt) :
    StaysLevel fun calls => execAll env calls limit ss :=
  (staysLevel_conduct env limit).execAll (staysLevel_calls env.image) ss (fun _ _ => trivial)
    fun _ => trivial

theorem body_asks (c : Call) : Asks fun calls => c.body env limit calls :=
  (asks_conduct env limit).body (asks_calls env.image) c

theorem body_staysLevel (c : Call) : StaysLevel fun calls => c.body env limit calls :=
  (staysLevel_conduct env limit).body (staysLevel_calls env.image) c

theorem Attempted.depth_le {c : Call} {t : RunState} (h : Attempted env limit store code c t) :
    t.depth ≤ env.maxDepth := by
  induction h with
  | unit makes =>
    rw [(execAll_staysLevel code.body).depth_of_makes (fun c => answer_balanced c _) makes]
    exact Nat.zero_le _
  | @inner c _ _ _ _ _ room makes =>
    rw [(body_staysLevel c).depth_of_makes (fun c => answer_balanced c _) makes]
    exact room

/-- A call at the greatest depth overflows, and any other that is not cancelled runs its body. -/
theorem answer_run {c : Call} {t : RunState} {room : Nat} (hc : ¬Env.Cancelled env t.polls) :
    (callsAt env limit (room + 1)).answer c t =
      entered env.maxDepth (c.body env limit (callsAt env limit room))
        { t with polls := t.polls + 1 } := by
  rw [answer_callsAt, deeper_eq, bind_ok (poll_passes hc)]

/-- Below the greatest depth, a call that is not cancelled ends as its body does. -/
theorem answer_fst {c : Call} {t : RunState} {room : Nat} (hc : ¬Env.Cancelled env t.polls)
    (hd : t.depth < env.maxDepth) :
    ((callsAt env limit (room + 1)).answer c t).1 = (c.body env limit (callsAt env limit room)
      { t with polls := t.polls + 1, depth := t.depth + 1 }).1 := by
  rw [answer_run hc]
  unfold entered
  rw [if_neg (Nat.not_le.mpr hd)]

/-- At the greatest depth, a call that is not cancelled overflows. -/
theorem answer_overflows {c : Call} {t : RunState} {room : Nat} (hc : ¬Env.Cancelled env t.polls)
    (hd : env.maxDepth ≤ t.depth) :
    ((callsAt env limit (room + 1)).answer c t).1 =
      .error (.fault (.stackOverflow env.maxDepth)) := by
  rw [answer_run hc]
  unfold entered
  rw [if_pos hd]

/-- An attempted call that ends with an error ends the run with it. -/
theorem Attempted.error {c : Call} {t : RunState} (h : Attempted env limit store code c t) {e : Stop}
    (he : ((callsAt env limit (env.maxDepth + 1 - t.depth)).answer c t).1 = .error e) :
    (run env limit store code).result = .error e := by
  induction h with
  | @unit c t makes =>
    have hdepth : t.depth = 0 :=
      (execAll_staysLevel code.body).depth_of_makes (fun c => answer_balanced c _) makes
    rw [hdepth] at he
    rw [run_eq, Outcome.ofExec_error]
    exact (execAll_asks code.body).error_of_makes makes he
  | @inner c c' t t' attempted passes room makes ih =>
    have hdepth : t'.depth = t.depth + 1 :=
      (body_staysLevel c).depth_of_makes (fun c => answer_balanced c _) makes
    have hroom : env.maxDepth + 1 - t'.depth = env.maxDepth - t.depth := by omega
    rw [hroom] at he
    have hbody := (body_asks c).error_of_makes makes he
    apply ih
    rw [show env.maxDepth + 1 - t.depth = env.maxDepth - t.depth + 1 by omega,
      answer_fst passes room]
    exact hbody

/-- An attempted call that overflows does so at a call that is attempted at the greatest depth. -/
theorem Attempted.overflow {n : Nat} : ∀ {room : Nat} {c : Call} {t : RunState},
    Attempted env limit store code c t → t.depth + room = env.maxDepth + 1 →
    ((callsAt env limit room).answer c t).1 = .error (.fault (.stackOverflow n)) →
    n = env.maxDepth ∧ ∃ c t, Attempted env limit store code c t ∧ t.depth = env.maxDepth ∧
      ¬Env.Cancelled env t.polls
  | 0, c, t, h, hroom, _ => absurd h.depth_le (by omega)
  | room + 1, c, t, h, hroom, hover => by
    by_cases hc : Env.Cancelled env t.polls
    · rw [answer_callsAt, deeper_eq, bind_error (poll_cancelled hc)] at hover
      cases hover
    · by_cases hd : t.depth < env.maxDepth
      · rw [answer_fst hc hd] at hover
        obtain ⟨c', t', hmakes, hover'⟩ := (body_asks c).makes_of_overflow hover
        have hdepth : t'.depth = t.depth + 1 :=
          (body_staysLevel c).depth_of_makes (fun c => answer_balanced c _) hmakes
        have hlevel : room = env.maxDepth - t.depth := by omega
        exact Attempted.overflow (.inner h hc hd (hlevel ▸ hmakes)) (by omega) hover'
      · rw [answer_overflows hc (Nat.not_lt.mp hd)] at hover
        cases hover
        exact ⟨rfl, c, t, h, Nat.le_antisymm h.depth_le (Nat.not_lt.mp hd), hc⟩

/-- A run overflows exactly if it attempts a call at the greatest depth that is not cancelled. -/
theorem run_overflow_iff {n : Nat} :
    (run env limit store code).result = .error (.fault (.stackOverflow n)) ↔
      n = env.maxDepth ∧ ∃ c t, Attempted env limit store code c t ∧ t.depth = env.maxDepth ∧
        ¬Env.Cancelled env t.polls := by
  constructor
  · intro h
    rw [run_eq, Outcome.ofExec_error] at h
    obtain ⟨c, t, hmakes, hover⟩ := (execAll_asks code.body).makes_of_overflow h
    have hdepth : t.depth = 0 :=
      (execAll_staysLevel code.body).depth_of_makes (fun c => answer_balanced c _) hmakes
    exact (Attempted.unit hmakes).overflow (by omega) hover
  · rintro ⟨rfl, c, t, h, hdepth, hc⟩
    apply h.error
    rw [show env.maxDepth + 1 - t.depth = 0 + 1 by omega,
      answer_overflows hc (Nat.le_of_eq hdepth.symm)]

/-- Code without loops ends. In every run, with loops or without, the depth is back where it was after
any expression and any statement, however it ends; a call is attempted at most at the greatest depth
and leaves the depth alone, as its body does with the level that it has entered; and a run overflows
exactly if it attempts a call at the greatest depth that is not cancelled. -/
theorem calls_bounded (env : Env) (store : Store) (code : Code) :
    (code.LoopFree env.image →
      ∃ o, o.result ≠ .error .unfinished ∧ ∀ limit, run env limit store code = o) ∧
    ∀ limit,
      (∀ room s, let calls := callsAt env limit room
        (∀ e, (eval env calls e s).2.depth = s.depth) ∧
        (∀ stmt, (exec env calls limit stmt s).2.depth = s.depth)) ∧
      (∀ c t, Attempted env limit store code c t →
        t.depth ≤ env.maxDepth ∧
        ((callsAt env limit (env.maxDepth + 1 - t.depth)).answer c t).2.depth = t.depth ∧
        (c.body env limit (callsAt env limit (env.maxDepth - t.depth))
          { t with polls := t.polls + 1, depth := t.depth + 1 }).2.depth = t.depth + 1) ∧
      ∀ n, (run env limit store code).result = .error (.fault (.stackOverflow n)) ↔
        n = env.maxDepth ∧ ∃ c t, Attempted env limit store code c t ∧ t.depth = env.maxDepth ∧
          ¬Env.Cancelled env t.polls := by
  refine ⟨run_of_loopFree, fun limit => ⟨fun room s => ⟨fun e => ?_, fun stmt => ?_⟩,
    fun c t h => ⟨h.depth_le, answer_balanced c _ t, body_balanced c _ _⟩, fun n => run_overflow_iff⟩⟩
  · exact (balanced_conduct env limit).eval (callsAt_balanced env limit room) e
      (fun _ _ => trivial) s
  · exact (balanced_conduct env limit).exec (callsAt_balanced env limit room) stmt
      (fun _ _ => trivial) (fun _ => trivial) s

/-- A type with a method that does nothing but call itself. -/
def selfCall : BoundStmt := .expr (.callStatic (.member ["A"] 0) [])

def selfCalling : Image :=
  ⟨[⟨["A"], .type { TypeDef.bare .classKind true false with
    methods := [⟨"F", "A", [], .void, true, .code ⟨[selfCall], 0⟩⟩] }⟩], [], []⟩

theorem selfCall_loopFree : Code.LoopFree selfCalling ⟨[selfCall], 0⟩ := by
  have hcalls : ∀ {c}, c ∈ BoundStmt.calleesOfAll [selfCall] → c = .method (.member ["A"] 0) := by
    intro c hc
    simpa [selfCall, BoundStmt.calleesOfAll, BoundStmt.callees, BoundExpr.callees,
      BoundExpr.calleesOfAll] using hc
  have hbody : ∀ {m inner}, Runs selfCalling (.method (.member ["A"] 0)) m → m.body = .code inner →
      inner = ⟨[selfCall], 0⟩ := by
    rintro m inner ⟨⟩ ⟨⟩
    rfl
  have hreach : ∀ {c}, Code.Reaches selfCalling ⟨[selfCall], 0⟩ c →
      c = .method (.member ["A"] 0) := by
    intro c hc
    induction hc with
    | direct hmem => exact hcalls hmem
    | body _ hruns hcode hmem ih =>
      subst ih
      cases hbody hruns hcode
      exact hcalls hmem
    | initial _ _ _ _ ih => cases ih
  refine ⟨rfl, fun hc hruns hcode => ?_⟩
  obtain rfl := hreach hc
  cases hbody hruns hcode
  rfl

/-- A method that calls itself ends by overflowing, for which it has come to the greatest depth. -/
theorem calls_bounded_selfCall :
    let env : Env := ⟨selfCalling, 8, none⟩
    let code : Code := ⟨[selfCall], 0⟩
    (∃ o, o.result ≠ .error .unfinished ∧ ∀ limit, run env limit Builtin.store code = o) ∧
    ∃ c t, Attempted env 0 Builtin.store code c t ∧ t.depth = 8 := by
  intro env code
  have hover : (run ⟨selfCalling, 8, none⟩ 0 Builtin.store ⟨[selfCall], 0⟩).result =
      .error (.fault (.stackOverflow 8)) := by
    have hstop : (run ⟨selfCalling, 8, none⟩ 0 Builtin.store ⟨[selfCall], 0⟩).result.casesOn some
        (fun _ => none) = some (Stop.fault (.stackOverflow 8)) := by decide +kernel
    cases hresult : (run ⟨selfCalling, 8, none⟩ 0 Builtin.store ⟨[selfCall], 0⟩).result with
    | ok v =>
      rw [hresult] at hstop
      cases hstop
    | error e =>
      rw [hresult] at hstop
      exact congrArg _ (Option.some.inj hstop)
  obtain ⟨hends, hrest⟩ := calls_bounded env Builtin.store code
  obtain ⟨-, c, t, hattempted, hdepth, -⟩ := ((hrest 0).2.2 8).mp hover
  exact ⟨hends selfCall_loopFree, c, t, hattempted, hdepth⟩

end Machine

end Chunkwise
