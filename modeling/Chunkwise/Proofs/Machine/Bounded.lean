import Chunkwise.Proofs.Machine.Conduct

/-!
A greater bound on the rounds of loops changes a run only if the run came to the smaller one, so a run
that ends does so with one outcome, whatever the bound. A run that comes to the bound has polled at
least as often as the bound allows rounds, since the levels of calls are never used up before; code
without loops never comes to it.
-/
namespace Chunkwise.Machine

open Run

variable {α β : Type}

/-- The depth after `p` is the one before it, however `p` ends. -/
def Balanced (p : Run α) : Prop := ∀ s, (p s).2.depth = s.depth

theorem balanced_of_step {p : Run α} (h : Step p) : Balanced p := by
  intro s
  rcases hp : p s with ⟨e | a, s'⟩
  · rw [(h.error s e s' hp).1]
  · exact (h.ok s a s' hp).1

theorem Balanced.bind {p : Run α} {f : α → Run β} (hp : Balanced p) (hf : ∀ a, Balanced (f a)) :
    Balanced (p >>= f) := by
  intro s
  have h := hp s
  rcases hs : p s with ⟨e | a, s'⟩
  · rw [bind_error hs]
    rwa [hs] at h
  · rw [bind_ok hs, hf a s']
    rwa [hs] at h

theorem balanced_poll (env : Env) : Balanced (Run.poll env) := by
  intro s
  unfold Run.poll
  split
  · split <;> rfl
  · rfl

theorem Balanced.entered {p : Run α} (h : Balanced p) (maxDepth : Nat) :
    Balanced (entered maxDepth p) := by
  intro s
  unfold Machine.entered
  split
  · rfl
  · change (p _).2.depth - 1 = s.depth
    rw [h]
    rfl

theorem Balanced.rounds {round : Run (Option Flow)} (h : Balanced round) (n : Nat) :
    Balanced (rounds round n) := by
  induction n with
  | zero => exact fun _ => rfl
  | succ n ih =>
    refine h.bind fun flow? => ?_
    cases flow? with
    | none => exact ih
    | some flow => exact fun _ => rfl

theorem balanced_conduct (env : Env) (limit : Nat) :
    Conduct (fun _ : Unit => env) (fun _ => limit) env.image True fun p => Balanced (p ()) where
  image _ := rfl
  step h := balanced_of_step h
  bind hp hf := hp.bind hf
  poll := balanced_poll env
  inFrame _ hp _ := hp _
  rounds _ _ hb := ((balanced_poll env).bind fun _ => hb).rounds limit

theorem callsAt_balanced (env : Env) (limit room : Nat) :
    Calls.Conduct (fun p : Unit → Run _ => Balanced (p ())) env.image
      (fun _ => callsAt env limit room) fun _ => True :=
  calls_conduct (C := fun _ {_} p => Balanced (p ())) (fun _ => balanced_conduct env limit)
    env.image.stays_all (fun _ => rfl) (fun hp => hp.entered _) room

/-- The second computation does what the first does, unless the first came to its bound. -/
def Extends (p q : Run α) : Prop := ∀ s, (p s).1 = .error .unfinished ∨ q s = p s

theorem Extends.refl (p : Run α) : Extends p p := fun _ => .inr rfl

theorem Extends.bind {p q : Run α} {f g : α → Run β} (hp : Extends p q)
    (hf : ∀ a, Extends (f a) (g a)) : Extends (p >>= f) (q >>= g) := by
  intro s
  rcases hs : p s with ⟨e | a, s'⟩
  · rcases hp s with hstop | heq
    · left
      rw [hs] at hstop
      rw [bind_error hs]
      exact congrArg _ (Except.error.inj hstop)
    · right
      rw [bind_error hs, bind_error (heq.trans hs)]
  · rcases hp s with hstop | heq
    · rw [hs] at hstop
      cases hstop
    · rw [bind_ok hs, bind_ok (heq.trans hs)]
      exact hf a s'

theorem Extends.inFrame {p q : Run α} (h : Extends p q) (frame : Frame) :
    Extends (Run.inFrame frame p) (Run.inFrame frame q) :=
  fun s => (h { s with frame }).imp (fun hstop => hstop) inFrame_congr

theorem Extends.entered {p q : Run α} (h : Extends p q) (maxDepth : Nat) :
    Extends (entered maxDepth p) (entered maxDepth q) := by
  intro s
  unfold Machine.entered
  split
  · exact .inr rfl
  · refine (h { s with depth := s.depth + 1 }).imp (fun hstop => hstop) fun heq => ?_
    rw [heq]

theorem Extends.rounds {p q : Run (Option Flow)} (h : Extends p q) {n m : Nat} (hnm : n ≤ m) :
    Extends (rounds p n) (rounds q m) := by
  induction n generalizing m with
  | zero => exact fun s => .inl rfl
  | succ n ih =>
    cases m with
    | zero => cases hnm
    | succ m =>
      refine h.bind fun flow? => ?_
      cases flow? with
      | none => exact ih (Nat.le_of_succ_le_succ hnm)
      | some flow => exact .refl _

theorem extends_conduct (env : Env) {n m : Nat} (hnm : n ≤ m) :
    Conduct (fun _ : Bool => env) (fun i => if i then m else n) env.image True
      fun p => Extends (p false) (p true) where
  image _ := rfl
  step _ := .refl _
  bind hp hf := hp.bind hf
  poll := .refl _
  inFrame frame hp := hp.inFrame frame
  rounds _ _ hb := ((Extends.refl _).bind fun _ => hb).rounds hnm

/-- A run that did not come to its bound is the same under every greater one. -/
theorem run_eq_of_le {env : Env} {n m : Nat} (hnm : n ≤ m) {store : Store} {code : Code}
    (h : (run env n store code).result ≠ .error .unfinished) :
    run env m store code = run env n store code := by
  have hcalls := calls_conduct (C := fun _ {_} p => Extends (p false) (p true))
    (fun _ => extends_conduct env hnm) env.image.stays_all (.refl _)
    (fun hp => hp.entered _) (env.maxDepth + 1)
  have hcode := (extends_conduct env hnm).execAll hcalls code.body (fun _ _ => trivial)
    fun _ => trivial
  rw [run_eq, run_eq]
  rcases hcode (startState store code.locals) with hstop | heq
  · exact absurd (Outcome.ofExec_error.mpr hstop) h
  · exact congrArg Outcome.ofExec heq

/-- Whether a poll that follows as many others reads as cancelled. -/
def Env.Cancelled (env : Env) (polls : Nat) : Prop := ∃ k, env.cancelAfter = some k ∧ k ≤ polls

theorem poll_cancelled {env : Env} {s : RunState} (h : Env.Cancelled env s.polls) :
    Run.poll env s = (.error .interrupted, { s with polls := s.polls + 1 }) := by
  obtain ⟨k, hk, hle⟩ := h
  simp [Run.poll, hk, hle]

theorem poll_passes {env : Env} {s : RunState} (h : ¬Env.Cancelled env s.polls) :
    Run.poll env s = (.ok (), { s with polls := s.polls + 1 }) := by
  unfold Run.poll
  cases hk : env.cancelAfter with
  | none => rfl
  | some k => simp [show ¬k ≤ s.polls from fun hle => h ⟨k, hk, hle⟩]

/-- The depth is back where it was, and coming to the bound took loops and as many polls. -/
structure Spent (limit : Nat) (loops : Prop) (s : RunState) (r : Except Stop α × RunState) : Prop where
  depth : r.2.depth = s.depth
  polls : s.polls ≤ r.2.polls
  bound : r.1 = .error .unfinished → loops ∧ s.polls + limit ≤ r.2.polls

/-- With enough levels left, `p` comes to the bound only where loops are allowed, and after as many
polls. -/
def Spends (maxDepth limit : Nat) (loops : Prop) (room : Nat) (p : Run α) : Prop :=
  ∀ s : RunState, s.depth ≤ maxDepth → maxDepth < s.depth + room → Spent limit loops s (p s)

variable {maxDepth limit room : Nat} {loops : Prop}

theorem Spent.trans {s s' : RunState} {r : Except Stop β × RunState} (hdepth : s'.depth = s.depth)
    (hpolls : s.polls ≤ s'.polls) (h : Spent limit loops s' r) : Spent limit loops s r where
  depth := h.depth.trans hdepth
  polls := Nat.le_trans hpolls h.polls
  bound he := ⟨(h.bound he).1, by have := (h.bound he).2; omega⟩

theorem spends_of_step {p : Run α} (h : Step p) : Spends maxDepth limit loops room p := by
  intro s _ _
  rcases hs : p s with ⟨e | a, s'⟩
  · obtain ⟨rfl, hown⟩ := h.error s e s' hs
    refine ⟨rfl, Nat.le_refl _, fun he => ?_⟩
    cases he
    exact hown.elim
  · obtain ⟨hdepth, hpolls, -⟩ := h.ok s a s' hs
    exact ⟨hdepth, Nat.le_of_eq hpolls.symm, fun he => by cases he⟩

theorem Spends.bind {p : Run α} {f : α → Run β} (hp : Spends maxDepth limit loops room p)
    (hf : ∀ a, Spends maxDepth limit loops room (f a)) :
    Spends maxDepth limit loops room (p >>= f) := by
  intro s hd hroom
  have h := hp s hd hroom
  rcases hs : p s with ⟨e | a, s'⟩
  · rw [bind_error hs]
    rw [hs] at h
    exact ⟨h.depth, h.polls, fun he => h.bound (congrArg _ (Except.error.inj he))⟩
  · rw [bind_ok hs]
    rw [hs] at h
    have hdepth : s'.depth = s.depth := h.depth
    exact .trans hdepth h.polls (hf a s' (by omega) (by omega))

theorem spends_poll (env : Env) : Spends maxDepth limit loops room (Run.poll env) := by
  intro s _ _
  by_cases hc : Env.Cancelled env s.polls
  · rw [poll_cancelled hc]
    exact ⟨rfl, Nat.le_succ _, fun he => by cases he⟩
  · rw [poll_passes hc]
    exact ⟨rfl, Nat.le_succ _, fun he => by cases he⟩

theorem Spends.inFrame {p : Run α} (h : Spends maxDepth limit loops room p) (frame : Frame) :
    Spends maxDepth limit loops room (Run.inFrame frame p) := fun s hd hroom =>
  ⟨(h { s with frame } hd hroom).depth, (h { s with frame } hd hroom).polls,
    (h { s with frame } hd hroom).bound⟩

theorem Spends.entered {p : Run α} (h : Spends maxDepth limit loops room p) :
    Spends maxDepth limit loops (room + 1) (entered maxDepth p) := by
  intro s hd hroom
  unfold Machine.entered
  split
  · exact ⟨rfl, Nat.le_refl _, fun he => by cases he⟩
  · have h' := h { s with depth := s.depth + 1 } (by simp only; omega) (by simp only; omega)
    refine ⟨?_, h'.polls, h'.bound⟩
    change (p _).2.depth - 1 = s.depth
    rw [h'.depth]
    rfl

theorem polls_lt_of_round {env : Env} {body : Run (Option Flow)}
    (h : Spends maxDepth limit loops room body) {s s' : RunState} {flow? : Option Flow}
    (hd : s.depth ≤ maxDepth) (hroom : maxDepth < s.depth + room)
    (hs : (Run.poll env >>= fun _ => body) s = (.ok flow?, s')) :
    s'.depth = s.depth ∧ s.polls < s'.polls := by
  by_cases hc : Env.Cancelled env s.polls
  · rw [bind_error (poll_cancelled hc)] at hs
    cases hs
  · rw [bind_ok (poll_passes hc)] at hs
    have hbody := h { s with polls := s.polls + 1 } hd hroom
    rw [hs] at hbody
    exact ⟨hbody.depth, hbody.polls⟩

theorem Spends.rounds {env : Env} {body : Run (Option Flow)} (hloops : loops)
    (h : Spends maxDepth limit loops room body) {n : Nat} (hn : n ≤ limit) :
    Spends maxDepth n loops room (rounds (Run.poll env >>= fun _ => body) n) := by
  induction n with
  | zero => exact fun s _ _ => ⟨rfl, Nat.le_refl _, fun _ => ⟨hloops, Nat.le_refl _⟩⟩
  | succ n ih =>
    intro s hd hroom
    rw [Machine.rounds]
    have hround := (spends_poll env).bind (fun _ => h) s hd hroom
    rcases hs : (Run.poll env >>= fun _ => body) s with ⟨e | flow?, s'⟩
    · rw [bind_error hs]
      rw [hs] at hround
      refine ⟨hround.depth, hround.polls, fun he => ⟨hloops, ?_⟩⟩
      have : s.polls + limit ≤ s'.polls := (hround.bound (congrArg _ (Except.error.inj he))).2
      simp only
      omega
    · rw [bind_ok hs]
      obtain ⟨hdepth, hpolls⟩ := polls_lt_of_round h hd hroom hs
      cases flow? with
      | some flow => exact ⟨hdepth, Nat.le_of_lt hpolls, fun he => by cases he⟩
      | none =>
        have hrest := ih (by omega) s' (by omega) (by omega)
        refine ⟨hrest.depth.trans hdepth, ?_, fun he => ⟨hloops, ?_⟩⟩
        · have := hrest.polls
          simp only at this ⊢
          omega
        · have := (hrest.bound he).2
          simp only at this ⊢
          omega

theorem spends_conduct (env : Env) (limit room : Nat) (loops : Prop) :
    Conduct (fun _ : Unit => env) (fun _ => limit) env.image loops
      fun p => Spends env.maxDepth limit loops room (p ()) where
  image _ := rfl
  step h := spends_of_step h
  bind hp hf := hp.bind hf
  poll := spends_poll env
  inFrame frame hp := hp.inFrame frame
  rounds hloops _ hb := hb.rounds hloops (Nat.le_refl _)

theorem callsAt_spends (env : Env) (limit : Nat) {loops : Prop} {A : Callee → Prop}
    (hA : env.image.Stays A loops) (room : Nat) :
    Calls.Conduct (fun p : Unit → Run _ => Spends env.maxDepth limit loops room (p ())) env.image
      (fun _ => callsAt env limit room) A :=
  calls_conduct (C := fun room {_} p => Spends env.maxDepth limit loops room (p ()))
    (fun room => spends_conduct env limit room loops) hA (fun s hd hroom => by omega)
    (fun hp => hp.entered) room

/-- The code of a unit that comes to the bound has polled as often, and there are loops. -/
theorem run_spends {env : Env} {limit : Nat} {loops : Prop} {A : Callee → Prop}
    (hA : env.image.Stays A loops) {code : Code} (hcode : code.Stays A loops) {store : Store}
    (h : (run env limit store code).result = .error .unfinished) :
    loops ∧ limit ≤ (run env limit store code).polls := by
  have hspent := (spends_conduct env limit (env.maxDepth + 1) loops).execAll
    (callsAt_spends env limit hA _) code.body hcode.1 hcode.2 (startState store code.locals)
    (Nat.zero_le _) (by simp [startState])
  rw [run_eq] at h
  have hbound := hspent.bound (Outcome.ofExec_error.mp h)
  exact ⟨hbound.1, Nat.le_trans (Nat.le_add_left _ _) hbound.2⟩

/-- A run completes with an outcome if some bound on the rounds of its loops lets it. -/
def Completes (env : Env) (store : Store) (code : Code) (o : Outcome) : Prop :=
  ∃ limit, run env limit store code = o ∧ o.result ≠ .error .unfinished

/-- A run diverges if it comes to every bound on the rounds of its loops. -/
def Diverges (env : Env) (store : Store) (code : Code) : Prop :=
  ∀ limit, (run env limit store code).result = .error .unfinished

variable {env : Env} {store : Store} {code : Code} {o o' : Outcome}

theorem Completes.eventually (h : Completes env store code o) :
    ∃ limit, ∀ n, limit ≤ n → run env n store code = o := by
  obtain ⟨limit, rfl, ho⟩ := h
  exact ⟨limit, fun n hn => run_eq_of_le hn ho⟩

theorem Completes.eq (h : Completes env store code o) (h' : Completes env store code o') : o = o' := by
  obtain ⟨n, hn⟩ := h.eventually
  obtain ⟨m, hm⟩ := h'.eventually
  exact (hn (max n m) (Nat.le_max_left n m)).symm.trans (hm (max n m) (Nat.le_max_right n m))

theorem Diverges.le_polls (h : Diverges env store code) (limit : Nat) :
    limit ≤ (run env limit store code).polls :=
  (run_spends env.image.stays_all ⟨fun _ _ => trivial, fun _ => trivial⟩
    (h limit)).2

end Chunkwise.Machine
