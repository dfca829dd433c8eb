import Chunkwise.Proofs.Machine.Bounded

/-!
The run of a cancelled unit goes along with the run that is never cancelled up to the poll that reads
as cancelled. If there is no such poll, the runs are the same. Otherwise the cancelled one stops at
this poll, with a part of the output of the other, also when that one diverges: statements, rounds
and calls start with a poll, so none starts any more.
-/
namespace Chunkwise.Machine

open Run

variable {α β : Type} {k : Nat}

/-- The second computation, which reads as cancelled after `k` polls, goes along with the first, which
never does, until then. -/
structure Cuts (k : Nat) (p q : Run α) : Prop where
  grows : ∀ s, s.polls ≤ (p s).2.polls ∧ ∃ text, (p s).2.out = s.out ++ text
  same : ∀ s, (p s).2.polls ≤ k → q s = p s
  cut : ∀ s, s.polls ≤ k → k < (p s).2.polls → ∃ s', q s = (.error .interrupted, s') ∧
    s'.polls = k + 1 ∧ ∃ text, (p s).2.out = s'.out ++ text

namespace Cuts

theorem of_step {p : Run α} (h : Step p) : Cuts k p p := by
  have hgrows : ∀ s, (p s).2.polls = s.polls ∧ ∃ text, (p s).2.out = s.out ++ text := by
    intro s
    rcases hs : p s with ⟨e | a, s'⟩
    · obtain ⟨rfl, -⟩ := h.error s e s' hs
      exact ⟨rfl, "", by simp⟩
    · obtain ⟨-, hpolls, hout, -⟩ := h.ok s a s' hs
      exact ⟨hpolls, hout⟩
  refine ⟨fun s => ⟨Nat.le_of_eq (hgrows s).1.symm, (hgrows s).2⟩, fun _ _ => rfl, ?_⟩
  intro s hs hcut
  rw [(hgrows s).1] at hcut
  omega

theorem unfinished : Cuts k (Run.stop .unfinished : Run α) (Run.stop .unfinished) where
  grows _ := ⟨Nat.le_refl _, "", by simp [Run.stop]⟩
  same _ _ := rfl
  cut s hs hcut := absurd hcut (Nat.not_lt.mpr hs)

theorem bind {p q : Run α} {f g : α → Run β} (hp : Cuts k p q) (hf : ∀ a, Cuts k (f a) (g a)) :
    Cuts k (p >>= f) (q >>= g) where
  grows s := by
    have h := hp.grows s
    rcases hs : p s with ⟨e | a, s'⟩
    · rw [bind_error hs]
      rw [hs] at h
      exact h
    · rw [bind_ok hs]
      rw [hs] at h
      obtain ⟨hpolls, text, hout⟩ := h
      obtain ⟨hpolls', text', hout'⟩ := (hf a).grows s'
      refine ⟨Nat.le_trans hpolls hpolls', text ++ text', ?_⟩
      rw [hout', hout, String.append_assoc]
  same s hk := by
    rcases hs : p s with ⟨e | a, s'⟩
    · rw [bind_error hs] at hk ⊢
      exact bind_error ((hp.same s (by rw [hs]; exact hk)).trans hs)
    · rw [bind_ok hs] at hk ⊢
      have hs' : s'.polls ≤ k := Nat.le_trans ((hf a).grows s').1 hk
      rw [bind_ok ((hp.same s (by rw [hs]; exact hs')).trans hs)]
      exact (hf a).same s' hk
  cut s hle hk := by
    rcases hs : p s with ⟨e | a, s'⟩
    · rw [bind_error hs] at hk ⊢
      obtain ⟨t, ht, hpolls, hout⟩ := hp.cut s hle (by rw [hs]; exact hk)
      rw [hs] at hout
      exact ⟨t, bind_error ht, hpolls, hout⟩
    · rw [bind_ok hs] at hk ⊢
      by_cases hs' : s'.polls ≤ k
      · rw [bind_ok ((hp.same s (by rw [hs]; exact hs')).trans hs)]
        exact (hf a).cut s' hs' hk
      · obtain ⟨t, ht, hpolls, text, hout⟩ := hp.cut s hle (by rw [hs]; exact Nat.lt_of_not_le hs')
        rw [hs] at hout
        obtain ⟨-, text', hout'⟩ := (hf a).grows s'
        refine ⟨t, bind_error ht, hpolls, text ++ text', ?_⟩
        rw [hout', hout, String.append_assoc]

theorem inFrame {p q : Run α} (h : Cuts k p q) (frame : Frame) :
    Cuts k (Run.inFrame frame p) (Run.inFrame frame q) where
  grows s := h.grows { s with frame }
  same s hk := inFrame_congr (h.same { s with frame } hk)
  cut s hle hk := by
    obtain ⟨t, ht, hpolls, hout⟩ := h.cut { s with frame } hle hk
    refine ⟨{ t with frame := s.frame }, ?_, hpolls, hout⟩
    unfold Run.inFrame
    rw [ht]

theorem entered {p q : Run α} (h : Cuts k p q) (maxDepth : Nat) :
    Cuts k (entered maxDepth p) (entered maxDepth q) := by
  have hrun : ∀ (r : Run α) (s : RunState), ¬maxDepth ≤ s.depth → Machine.entered maxDepth r s =
      ((r { s with depth := s.depth + 1 }).1, { (r { s with depth := s.depth + 1 }).2 with
        depth := (r { s with depth := s.depth + 1 }).2.depth - 1 }) := fun r s hd => if_neg hd
  have hfull : ∀ (r : Run α) (s : RunState), maxDepth ≤ s.depth → Machine.entered maxDepth r s =
      (.error (.fault (.stackOverflow maxDepth)), s) := fun r s hd => if_pos hd
  refine ⟨fun s => ?_, fun s hk => ?_, fun s hle hk => ?_⟩ <;> by_cases hd : maxDepth ≤ s.depth
  · rw [hfull p s hd]
    exact ⟨Nat.le_refl _, "", by simp⟩
  · rw [hrun p s hd]
    exact h.grows { s with depth := s.depth + 1 }
  · rw [hfull p s hd, hfull q s hd]
  · rw [hrun p s hd] at hk ⊢
    rw [hrun q s hd, h.same { s with depth := s.depth + 1 } hk]
  · rw [hfull p s hd] at hk
    exact absurd hk (Nat.not_lt.mpr hle)
  · rw [hrun p s hd] at hk ⊢
    obtain ⟨t, ht, hpolls, hout⟩ := h.cut { s with depth := s.depth + 1 } hle hk
    exact ⟨{ t with depth := t.depth - 1 }, by rw [hrun q s hd, ht], hpolls, hout⟩

theorem rounds {p q : Run (Option Flow)} (h : Cuts k p q) (n : Nat) :
    Cuts k (rounds p n) (rounds q n) := by
  induction n with
  | zero => exact .unfinished
  | succ n ih =>
    refine h.bind fun flow? => ?_
    cases flow? with
    | none => exact ih
    | some flow => exact .of_step (.pure flow)

end Cuts

/-- A run that is cancelled after `k` polls, or never. -/
def cutEnv (im : Image) (maxDepth k : Nat) (isCut : Bool) : Env :=
  ⟨im, maxDepth, if isCut then some k else none⟩

variable {im : Image} {maxDepth : Nat}

theorem cuts_poll : Cuts k (Run.poll (cutEnv im maxDepth k false))
    (Run.poll (cutEnv im maxDepth k true)) := by
  have hfree : ∀ s, Run.poll (cutEnv im maxDepth k false) s =
      (.ok (), { s with polls := s.polls + 1 }) := fun _ => rfl
  refine ⟨fun s => ?_, fun s hk => ?_, fun s hle hk => ?_⟩
  · rw [hfree]
    exact ⟨Nat.le_succ _, "", by simp⟩
  · rw [hfree] at hk ⊢
    refine poll_passes ?_
    rintro ⟨_, ⟨⟩, hle⟩
    exact absurd hk (Nat.not_le.mpr (Nat.lt_succ_of_le hle))
  · rw [hfree] at hk ⊢
    have hpolls : s.polls = k := Nat.le_antisymm hle (Nat.le_of_lt_succ hk)
    exact ⟨_, poll_cancelled ⟨k, rfl, Nat.le_of_eq hpolls.symm⟩, by simp [hpolls], "", by simp⟩

theorem cuts_conduct (im : Image) (maxDepth k limit : Nat) :
    Conduct (cutEnv im maxDepth k) (fun _ => limit) im True
      fun p => Cuts k (p false) (p true) where
  image _ := rfl
  step h := .of_step h
  bind hp hf := hp.bind hf
  poll := cuts_poll
  inFrame frame hp := hp.inFrame frame
  rounds _ _ hb := (cuts_poll.bind fun _ => hb).rounds limit

/-- The second outcome is that of a run cut off at the poll that follows `k` others. -/
structure Outcome.CutOff (k : Nat) (o o' : Outcome) : Prop where
  result : o'.result = .error .interrupted
  polls : o'.polls = k + 1
  out : ∃ text, o.out = o'.out ++ text

theorem run_cut (im : Image) (maxDepth k limit : Nat) (store : Store) (code : Code) :
    let o := run ⟨im, maxDepth, none⟩ limit store code
    let o' := run ⟨im, maxDepth, some k⟩ limit store code
    (o.polls ≤ k → o' = o) ∧ (k < o.polls → o.CutOff k o') := by
  have hcalls := calls_conduct (C := fun _ {_} p => Cuts k (p false) (p true))
    (fun _ => cuts_conduct im maxDepth k limit) im.stays_all .unfinished
    (fun hp => hp.entered _) (maxDepth + 1)
  have hcode := (cuts_conduct im maxDepth k limit).execAll hcalls code.body (fun _ _ => trivial)
    fun _ => trivial
  refine ⟨fun hk => congrArg Outcome.ofExec (hcode.same (startState store code.locals) hk),
    fun hk => ?_⟩
  obtain ⟨t, ht, hpolls, hout⟩ := hcode.cut (startState store code.locals) (Nat.zero_le _) hk
  have hrun : run ⟨im, maxDepth, some k⟩ limit store code = .ofExec (.error .interrupted, t) :=
    congrArg Outcome.ofExec ht
  rw [hrun]
  exact ⟨rfl, hpolls, hout⟩

variable {env : Env} {calls : Calls} {limit : Nat}

def round? (env : Env) (calls : Calls) (limit : Nat) : BoundStmt → Option (Run (Option Flow))
  | .whileDo test body => some do
    Run.poll env
    if (← eval env calls test).holds then return (← exec env calls limit body).leaves
    else return some .next
  | .doWhile body test => some do
    Run.poll env
    match (← exec env calls limit body).leaves with
    | some flow => return some flow
    | none =>
      if (← eval env calls test).holds then return none
      else return some .next
  | .forLoop _ test update body => some do
    Run.poll env
    if ← Machine.test env calls test then
      match (← exec env calls limit body).leaves with
      | some flow => return some flow
      | none =>
        let _ ← evalAll env calls update
        return none
    else return some .next
  | _ => none

/-- A loop polls, runs what comes before its first round, and goes round. -/
theorem exec_of_round? {stmt : BoundStmt} {round : Run (Option Flow)}
    (h : round? env calls limit stmt = some round) :
    ∃ before : Run Unit, exec env calls limit stmt =
      (Run.poll env >>= fun _ => before >>= fun _ => rounds round limit) := by
  cases stmt with
  | whileDo | doWhile =>
    cases h
    exact ⟨pure (), exec.eq_def env calls limit _⟩
  | forLoop init =>
    cases h
    exact ⟨execEach env calls limit init, exec.eq_def env calls limit _⟩
  | _ => cases h

/-- `p` polls first. -/
def PollsFirst (env : Env) (p : Run α) : Prop :=
  ∃ rest : Run α, p = (Run.poll env >>= fun _ => rest)

theorem PollsFirst.run {p : Run α} (h : PollsFirst env p) {s : RunState}
    (hs : Env.Cancelled env s.polls) : p s = (.error .interrupted, { s with polls := s.polls + 1 }) := by
  obtain ⟨rest, rfl⟩ := h
  exact bind_error (poll_cancelled hs)

theorem exec_pollsFirst (stmt : BoundStmt) : PollsFirst env (exec env calls limit stmt) := by
  cases stmt with
  | ifElse _ _ no => cases no <;> (rw [exec]; exact ⟨_, rfl⟩)
  | returnValue v => cases v <;> (rw [exec]; exact ⟨_, rfl⟩)
  | _ => rw [exec]; exact ⟨_, rfl⟩

theorem round?_pollsFirst {stmt : BoundStmt} {round : Run (Option Flow)}
    (h : round? env calls limit stmt = some round) : PollsFirst env round := by
  cases stmt with
  | whileDo | doWhile | forLoop =>
    cases h
    exact ⟨_, rfl⟩
  | _ => cases h

/-- From states that have polled `k` times, nothing starts any more: a statement, a round of a loop
and a call only poll once more and stop. -/
def StartsNothing (env : Env) (k : Nat) : Prop :=
  ∀ (calls : Calls) (limit : Nat) (s : RunState), k ≤ s.polls →
    (∀ stmt, exec env calls limit stmt s = (.error .interrupted, { s with polls := s.polls + 1 })) ∧
    (∀ stmt round, round? env calls limit stmt = some round →
      (∃ before : Run Unit, exec env calls limit stmt =
        (Run.poll env >>= fun _ => before >>= fun _ => rounds round limit)) ∧
      round s = (.error .interrupted, { s with polls := s.polls + 1 })) ∧
    ∀ room, (∀ m o args, invoke env limit (room + 1) m o args s =
        (.error .interrupted, { s with polls := s.polls + 1 })) ∧
      ∀ type constructor args, create env limit (room + 1) type constructor args s =
        (.error .interrupted, { s with polls := s.polls + 1 })

theorem startsNothing (im : Image) (maxDepth k : Nat) : StartsNothing ⟨im, maxDepth, some k⟩ k := by
  intro calls limit s hs
  have hc : Env.Cancelled ⟨im, maxDepth, some k⟩ s.polls := ⟨k, rfl, hs⟩
  exact ⟨fun stmt => (exec_pollsFirst stmt).run hc,
    fun stmt round hround => ⟨exec_of_round? hround, (round?_pollsFirst hround).run hc⟩,
    fun room => ⟨fun m o args => bind_error (poll_cancelled hc),
      fun type constructor args => bind_error (poll_cancelled hc)⟩⟩

theorem run_cancelled_at_once (im : Image) (maxDepth limit : Nat) (store : Store) {code : Code}
    (hcode : code.body ≠ []) :
    run ⟨im, maxDepth, some 0⟩ limit store code = ⟨.error .interrupted, store, "", 1⟩ := by
  obtain ⟨stmt, rest, hbody⟩ := List.exists_cons_of_ne_nil hcode
  have hc : Env.Cancelled ⟨im, maxDepth, some 0⟩ 0 := ⟨0, rfl, Nat.le_refl 0⟩
  rw [run_eq, hbody, execAll, bind_error ((exec_pollsFirst stmt).run hc)]
  rfl

/-- A run that is cancelled after `k` polls is the run that is never cancelled if that polls at most
`k` times. Otherwise it ends as interrupted at the next poll, having printed a prefix of the output
of the other, also when the other diverges, and nothing starts after that poll. -/
theorem run_cancelled (im : Image) (maxDepth k : Nat) (store : Store) (code : Code) :
    let free : Env := ⟨im, maxDepth, none⟩
    let cut : Env := ⟨im, maxDepth, some k⟩
    (∀ o, Completes free store code o → o.polls ≤ k → Completes cut store code o) ∧
    (∀ o, Completes free store code o → k < o.polls →
      ∃ o', Completes cut store code o' ∧ o.CutOff k o') ∧
    (Diverges free store code → ∃ o', Completes cut store code o' ∧
      ∀ limit, k < limit → (run free limit store code).CutOff k o') ∧
    (∀ limit, let o := run free limit store code
      let o' := run cut limit store code
      (o.polls ≤ k → o' = o) ∧ (k < o.polls → o.CutOff k o')) ∧
    StartsNothing cut k := by
  intro free cut
  have hrun := fun limit => run_cut im maxDepth k limit store code
  have hends : ∀ {limit}, k < (run free limit store code).polls →
      Completes cut store code (run cut limit store code) := by
    intro limit hk
    refine ⟨limit, rfl, ?_⟩
    rw [((hrun limit).2 hk).result]
    simp
  refine ⟨?_, ?_, fun hdiv => ?_, hrun, startsNothing im maxDepth k⟩
  · rintro o ⟨limit, rfl, ho⟩ hk
    exact ⟨limit, (hrun limit).1 hk, ho⟩
  · rintro o ⟨limit, rfl, ho⟩ hk
    exact ⟨_, hends hk, (hrun limit).2 hk⟩
  · have hpolls : ∀ {limit}, k < limit → k < (run free limit store code).polls := fun hk =>
      Nat.lt_of_lt_of_le hk (hdiv.le_polls _)
    refine ⟨_, hends (hpolls (Nat.lt_succ_self k)), fun limit hk => ?_⟩
    rw [(hends (hpolls (Nat.lt_succ_self k))).eq (hends (hpolls hk))]
    exact (hrun limit).2 (hpolls hk)

/-- Code that prints and then goes round forever. -/
def spinning : Code :=
  ⟨[.expr (.callStatic (.helper 0) [.const (.str "a")]),
    .whileDo (.const (.bool true)) (.expr (.callStatic (.helper 0) [.const (.str "b")]))], 0⟩

theorem spinning_diverges : Diverges ⟨Builtin.image, 8, none⟩ Builtin.store spinning := by
  intro limit
  let env : Env := ⟨Builtin.image, 8, none⟩
  let body : Run (Option Flow) := do
    Run.poll env
    if (← eval env (topCalls env limit) (.const (.bool true))).holds then
      return (← exec env (topCalls env limit) limit
        (.expr (.callStatic (.helper 0) [.const (.str "b")]))).leaves
    else return some .next
  have hround : ∀ st out frame polls, body ⟨st, out, frame, 0, polls⟩ =
      (.ok none, ⟨st, out ++ "b\n", frame, 0, polls + 3⟩) := by
    intro st out frame polls
    rfl
  have hspin : ∀ n st out frame polls,
      (rounds body n ⟨st, out, frame, 0, polls⟩).1 = .error .unfinished := by
    intro n
    induction n with
    | zero => exact fun _ _ _ _ => rfl
    | succ n ih =>
      intro st out frame polls
      rw [rounds, bind_ok (hround st out frame polls)]
      exact ih _ _ _ _
  have hfirst : exec env (topCalls env limit) limit
      (.expr (.callStatic (.helper 0) [.const (.str "a")])) (startState Builtin.store 0) =
      (.ok .next, ⟨Builtin.store, "a\n", Frame.ofSize 0 none, 0, 2⟩) := rfl
  rw [run_eq, Outcome.ofExec_error, spinning, execAll, bind_ok hfirst]
  simp only [execAll]
  refine bind_stops ?_
  rw [exec, bind_ok (poll_passes (by rintro ⟨_, ⟨⟩, _⟩))]
  exact hspin limit Builtin.store "a\n" (Frame.ofSize 0 none) 3

/-- Six polls are the start of the first statement and its call, of the loop, of one round with its
statement and the call in it; the seventh, of the second round, reads as cancelled. -/
theorem run_cancelled_spinning :
    let free : Env := ⟨Builtin.image, 8, none⟩
    let cut : Env := ⟨Builtin.image, 8, some 6⟩
    Diverges free Builtin.store spinning ∧
    (∃ o', Completes cut Builtin.store spinning o' ∧
      ∀ limit, 6 < limit → (run free limit Builtin.store spinning).CutOff 6 o') ∧
    (run cut 9 Builtin.store spinning).out = "a\nb\n" := by
  intro free cut
  exact ⟨spinning_diverges, (run_cancelled Builtin.image 8 6 Builtin.store spinning).2.2.1
    spinning_diverges, by decide +kernel⟩

end Chunkwise.Machine
