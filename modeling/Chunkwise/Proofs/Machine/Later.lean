import Chunkwise.Machine.Run
import Chunkwise.Proofs.Machine.Store

namespace Chunkwise

/-- A computation after which storage is a later one, however it ends. -/
def Run.Forward {α : Type} (p : Run α) : Prop :=
  ∀ s : RunState, s.store.Later (p s).2.store

namespace Run.Forward

variable {α β : Type} {p : Run α} {f : α → Run β}

theorem pure {a : α} : Forward (Pure.pure a : Run α) := fun _ => .refl _

theorem bind (hp : Forward p) (hf : ∀ a, Forward (f a)) : Forward (p >>= f) := by
  intro s
  have h := hp s
  change s.store.Later (Run.bind p f s).2.store
  unfold Run.bind
  revert h
  rcases p s with ⟨_ | a, s'⟩
  · exact id
  · exact fun h => h.trans (hf a s')

theorem stop {e : Stop} : Forward (Run.stop e : Run α) := fun _ => .refl _

theorem ofExcept {r : Except Stop α} : Forward (Run.ofExcept r) := fun _ => .refl _

theorem gets {g : RunState → α} : Forward (Run.gets g) := fun _ => .refl _

theorem modify {g : RunState → RunState} (h : ∀ s : RunState, s.store.Later (g s).store) :
    Forward (Run.modify g) := h

theorem poll {env : Env} : Forward (Run.poll env) := by
  intro s
  unfold Run.poll
  split
  · split <;> exact .refl _
  · exact .refl _

theorem print {text : String} : Forward (Run.print text) := fun _ => .refl _

theorem inFrame {frame : Frame} (hp : Forward p) : Forward (Run.inFrame frame p) :=
  fun s => hp { s with frame }

theorem deeper {env : Env} (hp : Forward p) : Forward (Run.deeper env p) := by
  refine bind poll fun _ s => ?_
  by_cases hd : env.maxDepth ≤ s.depth
  · simp only [hd, if_true]
    exact .refl _
  · simp only [hd, if_false]
    exact hp { s with depth := s.depth + 1 }

end Run.Forward

namespace Machine

open Run

/-- Calls that move storage forward. -/
structure Calls.Forward (calls : Calls) : Prop where
  invoke : ∀ m o args, Run.Forward (calls.invoke m o args)
  create : ∀ p i args, Run.Forward (calls.create p i args)

variable {env : Env} {calls : Calls} {limit : Nat}

theorem load_forward {l : Location} : Forward (load l) := Forward.gets

theorem save_forward {l : Location} {v : Value} : Forward (save l v) := by
  refine Forward.modify fun s => ?_
  cases l with
  | frame i => exact .refl _
  | static i => exact s.store.writeSlot_later i v
  | field o i => exact s.store.writeField_later o.id i v

theorem findMethod_forward {ref : MethodRef} : Forward (findMethod env ref) := by
  unfold findMethod
  split
  · exact Forward.pure
  · exact Forward.stop

theorem findImplementation_forward {o : ObjectRef} {m : Method} :
    Forward (findImplementation env o m) := by
  unfold findImplementation
  split
  · exact Forward.pure
  · exact Forward.stop

mutual

theorem eval_forward (h : calls.Forward) : ∀ e : BoundExpr, Forward (eval env calls e)
  | .const v => by
    rw [eval]
    exact Forward.pure
  | .load p => by
    rw [eval]
    exact (locate_forward h p).bind fun _ => load_forward
  | .thisRef => by
    rw [eval]
    exact Forward.gets
  | .assign p e => by
    rw [eval]
    refine (locate_forward h p).bind fun l => (eval_forward h e).bind fun v => ?_
    exact save_forward.bind fun _ => Forward.pure
  | .compound p op e => by
    rw [eval]
    refine (locate_forward h p).bind fun l => load_forward.bind fun old => ?_
    refine (eval_forward h e).bind fun v => Forward.ofExcept.bind fun new => ?_
    exact save_forward.bind fun _ => Forward.pure
  | .step p op leading kind => by
    rw [eval]
    refine (locate_forward h p).bind fun l => load_forward.bind fun old => ?_
    refine Forward.ofExcept.bind fun new => ?_
    exact save_forward.bind fun _ => Forward.pure
  | .neg kind e => by
    rw [eval]
    exact (eval_forward h e).bind fun _ => Forward.ofExcept
  | .not e => by
    rw [eval]
    exact (eval_forward h e).bind fun _ => Forward.pure
  | .binary op l r => by
    rw [eval]
    exact (eval_forward h l).bind fun _ => (eval_forward h r).bind fun _ => Forward.ofExcept
  | .both l r => by
    rw [eval]
    refine (eval_forward h l).bind fun v => ?_
    split
    · exact (eval_forward h r).bind fun _ => Forward.pure
    · exact Forward.pure
  | .either l r => by
    rw [eval]
    refine (eval_forward h l).bind fun v => ?_
    split
    · exact Forward.pure
    · exact (eval_forward h r).bind fun _ => Forward.pure
  | .coalesce l r => by
    rw [eval]
    refine (eval_forward h l).bind fun v => ?_
    split
    · exact eval_forward h r
    · exact Forward.pure
  | .cond e l r => by
    rw [eval]
    refine (eval_forward h e).bind fun v => ?_
    split
    · exact eval_forward h l
    · exact eval_forward h r
  | .callStatic ref args => by
    rw [eval]
    refine (evalAll_forward h args).bind fun vs => findMethod_forward.bind fun m => ?_
    exact h.invoke m none vs
  | .callDirect target ref args => by
    rw [eval]
    refine (eval_forward h target).bind fun v => Forward.ofExcept.bind fun o => ?_
    refine (evalAll_forward h args).bind fun vs => findMethod_forward.bind fun m => ?_
    exact h.invoke m (some o) vs
  | .callVirtual target ref args => by
    rw [eval]
    refine (eval_forward h target).bind fun v => Forward.ofExcept.bind fun o => ?_
    refine (evalAll_forward h args).bind fun vs => findMethod_forward.bind fun m => ?_
    exact findImplementation_forward.bind fun n => h.invoke n (some o) vs
  | .new p i args => by
    rw [eval]
    exact (evalAll_forward h args).bind fun vs => h.create p i vs
  | .toText e => by
    rw [eval]
    exact (eval_forward h e).bind fun _ => Forward.ofExcept
  | .textLength e => by
    rw [eval]
    exact (eval_forward h e).bind fun _ => Forward.ofExcept
  | .widen e => by
    rw [eval]
    exact (eval_forward h e).bind fun _ => Forward.pure

theorem evalAll_forward (h : calls.Forward) : ∀ es : List BoundExpr, Forward (evalAll env calls es)
  | [] => by
    rw [evalAll]
    exact Forward.pure
  | e :: es => by
    rw [evalAll]
    exact (eval_forward h e).bind fun _ => (evalAll_forward h es).bind fun _ => Forward.pure

theorem locate_forward (h : calls.Forward) : ∀ p : Place, Forward (locate env calls p)
  | .frame i => by
    rw [locate]
    exact Forward.pure
  | .static i => by
    rw [locate]
    exact Forward.pure
  | .field target i => by
    rw [locate]
    exact (eval_forward h target).bind fun _ => Forward.ofExcept.bind fun _ => Forward.pure

end

theorem rounds_forward {round : Run (Option Flow)} (h : Forward round) (n : Nat) :
    Forward (rounds round n) := by
  induction n with
  | zero => exact Forward.stop
  | succ n ih =>
    rw [rounds]
    refine h.bind fun flow? => ?_
    cases flow? with
    | none => exact ih
    | some flow => exact Forward.pure

theorem test_forward (h : calls.Forward) (e : Option BoundExpr) : Forward (test env calls e) := by
  cases e with
  | none => exact Forward.pure
  | some e => exact (eval_forward h e).bind fun _ => Forward.pure

mutual

theorem exec_forward (h : calls.Forward) : ∀ s : BoundStmt, Forward (exec env calls limit s)
  | .expr e => by
    rw [exec]
    exact Forward.poll.bind fun _ => (eval_forward h e).bind fun _ => Forward.pure
  | .capture e => by
    rw [exec]
    refine Forward.poll.bind fun _ => (eval_forward h e).bind fun _ => ?_
    exact Forward.bind (Forward.modify fun _ => .refl _) fun _ => Forward.pure
  | .block body => by
    rw [exec]
    exact Forward.poll.bind fun _ => execAll_forward h body
  | .ifElse c yes none => by
    rw [exec]
    refine Forward.poll.bind fun _ => (eval_forward h c).bind fun v => ?_
    split
    · exact exec_forward h yes
    · exact Forward.pure
  | .ifElse c yes (some no) => by
    rw [exec]
    refine Forward.poll.bind fun _ => (eval_forward h c).bind fun v => ?_
    split
    · exact exec_forward h yes
    · exact exec_forward h no
  | .whileDo c body => by
    rw [exec]
    refine Forward.poll.bind fun _ => rounds_forward (Forward.poll.bind fun _ => ?_) limit
    refine (eval_forward h c).bind fun v => ?_
    split
    · exact (exec_forward h body).bind fun _ => Forward.pure
    · exact Forward.pure
  | .doWhile body c => by
    rw [exec]
    refine Forward.poll.bind fun _ => rounds_forward (Forward.poll.bind fun _ => ?_) limit
    refine (exec_forward h body).bind fun flow => ?_
    split
    · exact Forward.pure
    · refine (eval_forward h c).bind fun v => ?_
      split <;> exact Forward.pure
  | .forLoop init c update body => by
    rw [exec]
    refine Forward.poll.bind fun _ => (execEach_forward h init).bind fun _ => ?_
    refine rounds_forward (Forward.poll.bind fun _ => (test_forward h c).bind fun b => ?_) limit
    split
    · refine (exec_forward h body).bind fun flow => ?_
      split
      · exact Forward.pure
      · exact (evalAll_forward h update).bind fun _ => Forward.pure
    · exact Forward.pure
  | .breakLoop => by
    rw [exec]
    exact Forward.poll.bind fun _ => Forward.pure
  | .continueLoop => by
    rw [exec]
    exact Forward.poll.bind fun _ => Forward.pure
  | .returnValue none => by
    rw [exec]
    exact Forward.poll.bind fun _ => Forward.pure
  | .returnValue (some e) => by
    rw [exec]
    exact Forward.poll.bind fun _ => (eval_forward h e).bind fun _ => Forward.pure
  | .throwValue e => by
    rw [exec]
    exact Forward.poll.bind fun _ => (eval_forward h e).bind fun _ => Forward.stop

theorem execAll_forward (h : calls.Forward) :
    ∀ ss : List BoundStmt, Forward (execAll env calls limit ss)
  | [] => by
    rw [execAll]
    exact Forward.pure
  | s :: rest => by
    rw [execAll]
    refine (exec_forward h s).bind fun flow => ?_
    cases flow with
    | next => exact execAll_forward h rest
    | out | again | returned v => exact Forward.pure

theorem execEach_forward (h : calls.Forward) :
    ∀ ss : List BoundStmt, Forward (execEach env calls limit ss)
  | [] => by
    rw [execEach]
    exact Forward.pure
  | s :: rest => by
    rw [execEach]
    exact (exec_forward h s).bind fun _ => execEach_forward h rest

end

theorem native_forward {im : Image} {n : Native} {args : List Value} :
    Forward (native im n args) := by
  cases n with
  | writeLine | writeBlankLine | write => exact Forward.print.bind fun _ => Forward.pure
  | _ => exact Forward.pure

theorem runBody_forward (h : calls.Forward) {m : Method} {o : Option ObjectRef}
    {args : List Value} : Forward (runBody env limit calls m o args) := by
  unfold runBody
  split
  · exact (execAll_forward h _).inFrame.bind fun _ => Forward.pure
  · exact native_forward
  · exact Forward.stop
  · exact Forward.stop

theorem initFields_forward (h : calls.Forward) (o : ObjectRef) (inits : List (Nat × BoundExpr)) :
    Forward (initFields env calls o inits) := by
  induction inits with
  | nil => exact Forward.pure
  | cons x rest ih => exact (eval_forward h x.2).bind fun _ => save_forward.bind fun _ => ih

theorem build_forward (h : calls.Forward) {p : Path} {i : Option Nat} {args : List Value} :
    Forward (build env calls p i args) := by
  unfold build
  split
  · exact Forward.stop
  · next d _ =>
    refine Forward.bind (fun s => s.store.addObject_later p _) fun o => ?_
    refine (initFields_forward h o d.inits).inFrame.bind fun _ => ?_
    split
    · exact (h.invoke _ _ _).bind fun _ => Forward.pure
    · exact Forward.pure

theorem calls_forward (env : Env) (limit room : Nat) :
    Calls.Forward ⟨invoke env limit room, create env limit room⟩ := by
  induction room with
  | zero => exact ⟨fun _ _ _ => Forward.stop, fun _ _ _ => Forward.stop⟩
  | succ room ih =>
    exact ⟨fun _ _ _ => (runBody_forward ih).deeper, fun _ _ _ => (build_forward ih).deeper⟩

theorem run_later (env : Env) (limit : Nat) (store : Store) (code : Code) :
    store.Later (run env limit store code).store :=
  execAll_forward (calls_forward env limit (env.maxDepth + 1)) code.body
    ⟨store, "", Frame.ofSize code.locals none, 0, 0⟩

end Machine

end Chunkwise
