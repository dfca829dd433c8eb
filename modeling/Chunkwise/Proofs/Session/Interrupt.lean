import Chunkwise.Proofs.Machine.Interrupted
import Chunkwise.Session.Evaluator

/-!
Any number of callers execute on one executor, and their steps interleave with polls, interrupts
and questions from anywhere. The caller with the lock decides what the other cells of the executor
hold (`Orderly`). So an interrupt hits the run that has the lock at that moment or none at all, and
a run can be cancelled only by an interrupt that comes after its own start.
-/
namespace Chunkwise

namespace Phase

/-- The token of the run that is under way. -/
def token? : Phase → Option RunToken
  | .installed t | .running t | .landed t | .cleared t => some t
  | .outside | .locked => none

/-- The token that interrupts find while the holder of the lock is in this phase. -/
def shown : Phase → Option RunToken
  | .installed t | .running t | .landed t => some t
  | .outside | .locked | .cleared _ => none

/-- Whether the run counts as in flight. -/
def flies : Phase → Bool
  | .running _ => true
  | _ => false

theorem token?_of_shown {p : Phase} {t : RunToken} (h : p.shown = some t) : p.token? = some t := by
  cases p <;> simp_all [shown, token?]

theorem running_of_flies {p : Phase} (h : p.flies = true) :
    ∃ t, p = .running t ∧ p.shown = some t := by
  cases p <;> simp_all [flies, shown]

end Phase

/-- What may happen in a system, with the answer that is given. -/
inductive Event where
  | advance (caller : Nat)
  | poll (caller : Nat) (cancelled : Bool)
  | interrupt (hit : Bool)
  | isExecuting (answer : Bool)

namespace System

variable {s s' : System}

inductive Happens : System → Event → System → Prop where
  | advance {s s' : System} {c : Nat} (step : s.step c = some s') : Happens s (.advance c) s'
  /-- A run reads the flag of its own token. -/
  | poll {s : System} {c : Nat} {t : RunToken} (running : s.phase c = .running t) :
      Happens s (.poll c (s.executor.isCancelled t)) s
  | interrupt (s : System) : Happens s (.interrupt s.interrupt.1) s.interrupt.2
  | isExecuting (s : System) : Happens s (.isExecuting s.executor.isExecuting) s

/-- One interleaving, the latest event last. -/
inductive Leads (s : System) : List Event → System → Prop where
  | start : Leads s [] s
  | next {events : List Event} {event : Event} {m s' : System} (before : Leads s events m)
      (happens : m.Happens event s') : Leads s (events ++ [event]) s'

theorem Leads.trans {m : System} {es fs : List Event} (h : s.Leads es m) (h' : m.Leads fs s') :
    s.Leads (es ++ fs) s' := by
  induction h' with
  | start => simpa using h
  | next _ happens ih =>
    rw [← List.append_assoc]
    exact ih.next happens

theorem Leads.cons {m : System} {event : Event} {events : List Event} (h : s.Happens event m)
    (h' : m.Leads events s') : s.Leads (event :: events) s' := (Leads.start.next h).trans h'

/-- The phase of the caller that has the lock. -/
def inside (s : System) : Phase :=
  match s.executor.holder with
  | some c => s.phase c
  | none => .outside

structure Orderly (s : System) : Prop where
  elsewhere : ∀ c, s.executor.holder ≠ some c → s.phase c = .outside
  entered : ∀ c, s.executor.holder = some c → s.phase c ≠ .outside
  current : s.executor.current = s.inside.shown
  inFlight : s.executor.inFlight = s.inside.flies
  issued : ∀ c t, (s.phase c).token? = some t → t < s.executor.issued
  cancelled : ∀ t ∈ s.executor.cancelled, t < s.executor.issued

theorem initial_orderly : initial.Orderly where
  elsewhere _ _ := rfl
  entered c h := by simp [initial, Executor.idle] at h
  current := rfl
  inFlight := rfl
  issued c t h := by simp [initial, Phase.token?] at h
  cancelled t h := by simp [initial, Executor.idle] at h

namespace Orderly

theorem holder_iff (h : s.Orderly) (c : Nat) :
    s.executor.holder = some c ↔ s.phase c ≠ .outside := by
  constructor
  · exact h.entered c
  · intro hc
    by_cases hholds : s.executor.holder = some c
    · exact hholds
    · exact absurd (h.elsewhere c hholds) hc

theorem inside_eq {c : Nat} (hc : s.executor.holder = some c) : s.inside = s.phase c := by
  simp [inside, hc]

/-- The caller that has the lock, or that takes it, moves to a phase that fits the cells. -/
theorem move (h : s.Orderly) {c : Nat} {e : Executor} {p : Phase}
    (hc : ∀ c', s.executor.holder = some c' → c' = c)
    (hholder : e.holder = if p = .outside then none else some c)
    (hcurrent : e.current = p.shown) (hflight : e.inFlight = p.flies)
    (hissued : s.executor.issued ≤ e.issued) (htoken : ∀ t, p.token? = some t → t < e.issued)
    (hcancelled : e.cancelled = s.executor.cancelled) : (s.move c e p).Orderly := by
  have hothers : ∀ c', c' ≠ c → s.phase c' = .outside := by
    intro c' hne
    exact h.elsewhere c' fun hholds => hne (hc c' hholds)
  have hinside : (s.move c e p).inside = p := by
    by_cases hp : p = .outside
    · simp [inside, System.move, hholder, hp]
    · simp [inside, System.move, hholder, hp]
  refine ⟨?_, ?_, ?_, ?_, ?_, ?_⟩
  · intro c' hne
    by_cases hcc : c' = c
    · subst hcc
      by_cases hp : p = .outside
      · simp [System.move, hp]
      · simp [System.move, hholder, hp] at hne
    · simp [System.move, hcc, hothers c' hcc]
  · intro c' hholds
    by_cases hp : p = .outside
    · simp [System.move, hholder, hp] at hholds
    · simp only [System.move, hholder, hp, if_false, Option.some.injEq] at hholds
      simp [System.move, ← hholds, hp]
  · rw [hinside]
    exact hcurrent
  · rw [hinside]
    exact hflight
  · intro c' t ht
    by_cases hcc : c' = c
    · simp only [System.move, hcc, if_true] at ht
      exact htoken t ht
    · simp [System.move, hcc, hothers c' hcc, Phase.token?] at ht
  · intro t ht
    have hlt := h.cancelled t (hcancelled ▸ ht)
    exact Nat.lt_of_lt_of_le hlt hissued

theorem step (h : s.Orderly) {c : Nat} (hs : s.step c = some s') : s'.Orderly := by
  -- Past the lock, the caller is its holder, and the phase tells what the cells hold.
  have hmine : s.phase c ≠ .outside → ∀ c', s.executor.holder = some c' → c' = c := by
    intro hp c' hc'
    have hholds := (h.holder_iff c).mpr hp
    rw [hholds, Option.some.injEq] at hc'
    exact hc'.symm
  have hcells : s.phase c ≠ .outside → s.executor.holder = some c ∧
      s.executor.current = (s.phase c).shown ∧ s.executor.inFlight = (s.phase c).flies := by
    intro hp
    have hholds := (h.holder_iff c).mpr hp
    rw [← inside_eq hholds]
    exact ⟨hholds, h.current, h.inFlight⟩
  have hissued := h.issued c
  unfold System.step at hs
  cases hp : s.phase c with
  | outside =>
    simp only [hp, Executor.acquire] at hs
    split at hs
    · cases hs
    · next hfree =>
      cases hs
      have hnone : s.executor.holder = none := by simpa using hfree
      have hinside : s.inside = .outside := by simp [inside, hnone]
      refine h.move (by simp [hnone]) (by simp) ?_ ?_ (Nat.le_refl _) (by simp [Phase.token?]) rfl
      · simpa [hinside, Phase.shown] using h.current
      · simpa [hinside, Phase.flies] using h.inFlight
  | locked =>
    obtain ⟨hholder, -, hflight⟩ := hcells (by simp [hp])
    simp only [hp, Executor.install, Option.some.injEq] at hs
    subst hs
    refine h.move (hmine (by simp [hp])) (by simp [hholder]) rfl ?_ (Nat.le_succ _) ?_ rfl
    · simpa [hp, Phase.flies] using hflight
    · intro t ht
      simp only [Phase.token?, Option.some.injEq] at ht
      subst ht
      exact Nat.lt_succ_self _
  | installed t =>
    obtain ⟨hholder, hcurrent, -⟩ := hcells (by simp [hp])
    simp only [hp, Option.some.injEq] at hs
    subst hs
    rw [hp] at hissued hcurrent
    exact h.move (hmine (by simp [hp])) (by simp [Executor.takeOff, hholder]) hcurrent rfl
      (Nat.le_refl _) hissued rfl
  | running t =>
    obtain ⟨hholder, hcurrent, -⟩ := hcells (by simp [hp])
    simp only [hp, Option.some.injEq] at hs
    subst hs
    rw [hp] at hissued hcurrent
    exact h.move (hmine (by simp [hp])) (by simp [Executor.land, hholder]) hcurrent rfl
      (Nat.le_refl _) hissued rfl
  | landed t =>
    obtain ⟨hholder, -, hflight⟩ := hcells (by simp [hp])
    simp only [hp, Option.some.injEq] at hs
    subst hs
    rw [hp] at hissued hflight
    exact h.move (hmine (by simp [hp])) (by simp [Executor.clear, hholder]) rfl hflight
      (Nat.le_refl _) hissued rfl
  | cleared t =>
    obtain ⟨-, hcurrent, hflight⟩ := hcells (by simp [hp])
    simp only [hp, Option.some.injEq] at hs
    subst hs
    rw [hp] at hcurrent hflight
    exact h.move (hmine (by simp [hp])) (by simp [Executor.release]) hcurrent hflight
      (Nat.le_refl _) (by simp [Phase.token?]) rfl

theorem holder_of_current (h : s.Orderly) {t : RunToken} (ht : s.executor.current = some t) :
    ∃ c, s.executor.holder = some c ∧ (s.phase c).token? = some t := by
  rw [h.current] at ht
  cases hholder : s.executor.holder with
  | none => simp [inside, hholder, Phase.shown] at ht
  | some c =>
    rw [inside_eq hholder] at ht
    exact ⟨c, rfl, Phase.token?_of_shown ht⟩

theorem running_of_executing (h : s.Orderly) (hflight : s.executor.isExecuting = true) :
    ∃ c t, s.executor.holder = some c ∧ s.phase c = .running t ∧ s.executor.current = some t := by
  have hflies : s.inside.flies = true := h.inFlight ▸ hflight
  obtain ⟨t, hrunning, hshown⟩ := Phase.running_of_flies hflies
  have hcurrent := h.current.trans hshown
  obtain ⟨c, hholder, -⟩ := h.holder_of_current hcurrent
  rw [inside_eq hholder] at hrunning
  exact ⟨c, t, hholder, hrunning, hcurrent⟩

end Orderly

/-- The system after the token was cancelled. -/
def cancel (s : System) (t : RunToken) : System :=
  { s with executor := { s.executor with cancelled := t :: s.executor.cancelled } }

theorem interrupt_of_some {t : RunToken} (h : s.executor.current = some t) :
    s.interrupt = (true, s.cancel t) := by
  simp [interrupt, Executor.interrupt, h, cancel]

theorem interrupt_of_none (h : s.executor.current = none) : s.interrupt = (false, s) := by
  simp [interrupt, Executor.interrupt, h]

/-- An interrupt that hits cancels the token it finds, and one that misses finds none. -/
theorem Happens.interrupt_cases {hit : Bool} (h : s.Happens (.interrupt hit) s') :
    (∃ t, s.executor.current = some t ∧ hit = true ∧ s' = s.cancel t) ∨
      s.executor.current = none ∧ hit = false ∧ s' = s := by
  generalize hevent : Event.interrupt hit = event at h
  cases h with
  | advance _ | poll _ | isExecuting => cases hevent
  | interrupt =>
    cases hcurrent : s.executor.current with
    | none =>
      rw [interrupt_of_none hcurrent] at hevent ⊢
      cases hevent
      exact .inr ⟨rfl, rfl, rfl⟩
    | some t =>
      rw [interrupt_of_some hcurrent] at hevent ⊢
      cases hevent
      exact .inl ⟨t, rfl, rfl, rfl⟩

theorem Orderly.cancel (h : s.Orderly) {t : RunToken} (ht : s.executor.current = some t) :
    (s.cancel t).Orderly := by
  obtain ⟨c, -, htoken⟩ := h.holder_of_current ht
  refine ⟨h.elsewhere, h.entered, h.current, h.inFlight, h.issued, ?_⟩
  intro u hu
  rcases List.mem_cons.mp hu with rfl | hu
  · exact h.issued c u htoken
  · exact h.cancelled u hu

theorem Orderly.happens (h : s.Orderly) {event : Event} (he : s.Happens event s') :
    s'.Orderly := by
  cases he with
  | advance step => exact h.step step
  | poll _ => exact h
  | isExecuting => exact h
  | interrupt =>
    cases hcurrent : s.executor.current with
    | none => simpa [interrupt_of_none hcurrent] using h
    | some t => simpa [interrupt_of_some hcurrent] using h.cancel hcurrent

theorem Orderly.leads (h : s.Orderly) {events : List Event} (he : s.Leads events s') :
    s'.Orderly := by
  induction he with
  | start => exact h
  | next _ happens ih => exact ih.happens happens

theorem step_cancelled {c : Nat} (h : s.step c = some s') :
    s'.executor.cancelled = s.executor.cancelled := by
  unfold System.step at h
  split at h
  · simp only [Executor.acquire] at h
    split at h
    · cases h
    · cases h
      rfl
  all_goals
    simp only [Option.some.injEq] at h
    subst h
    rfl

/-- A flag is set by an interrupt that finds its token, and by nothing else. -/
theorem Happens.cancelled {event : Event} (h : s.Happens event s') {t : RunToken}
    (ht : s'.executor.isCancelled t = true) : s.executor.isCancelled t = true ∨
      event = .interrupt true ∧ s.executor.current = some t := by
  cases h with
  | advance step =>
    left
    simpa [Executor.isCancelled, step_cancelled step] using ht
  | poll _ => exact .inl ht
  | isExecuting => exact .inl ht
  | interrupt =>
    cases hcurrent : s.executor.current with
    | none => exact .inl (by simpa [interrupt_of_none hcurrent] using ht)
    | some u =>
      rw [interrupt_of_some hcurrent] at ht ⊢
      simp only [System.cancel, Executor.isCancelled, List.contains_cons, Bool.or_eq_true,
        beq_iff_eq] at ht
      rcases ht with rfl | ht
      · exact .inr ⟨rfl, rfl⟩
      · exact .inl ht

theorem Leads.cancelled {events : List Event} (h : s.Leads events s') {t : RunToken}
    (ht : s'.executor.isCancelled t = true) : s.executor.isCancelled t = true ∨
      ∃ before after m, events = before ++ Event.interrupt true :: after ∧ s.Leads before m ∧
        m.executor.current = some t := by
  induction h with
  | start => exact .inl ht
  | @next events event m s' before happens ih =>
    rcases happens.cancelled ht with ht | ⟨rfl, hcurrent⟩
    · rcases ih ht with ht | ⟨es, fs, n, rfl, hes, hn⟩
      · exact .inl ht
      · exact .inr ⟨es, fs ++ [event], n, by simp, hes, hn⟩
    · exact .inr ⟨events, [], m, rfl, before, hcurrent⟩

theorem Orderly.not_cancelled_of_install (h : s.Orderly) {c : Nat} {t : RunToken}
    (hs : s.step c = some s') (hlocked : s.phase c = .locked)
    (hinstalled : s'.phase c = .installed t) : s'.executor.isCancelled t = false := by
  have hfresh : t = s.executor.issued := by
    simp only [System.step, hlocked, Executor.install, Option.some.injEq] at hs
    subst hs
    simpa [System.move] using hinstalled.symm
  rw [Executor.isCancelled, step_cancelled hs, hfresh]
  simp only [List.contains_eq_mem, decide_eq_false_iff_not]
  intro hmem
  exact Nat.lt_irrefl _ (h.cancelled _ hmem)

/-- In every interleaving at most one run has the lock, and a run in flight can be found by
interrupts. An interrupt that hits cancels the token of the run that has the lock and does nothing
else; one that misses does nothing. A run that starts afterwards is cancelled only if an interrupt
finds it after its start. -/
theorem interrupts_hit_holder {events : List Event} (h : initial.Leads events s) :
    (∀ c, s.executor.holder = some c ↔ s.phase c ≠ .outside) ∧
    (∀ c c', s.phase c ≠ .outside → s.phase c' ≠ .outside → c = c') ∧
    (s.executor.isExecuting = true → ∃ c t, s.executor.holder = some c ∧
      s.phase c = .running t ∧ s.executor.current = some t) ∧
    (∀ s', s.Happens (.interrupt true) s' → ∃ c t, s.executor.holder = some c ∧
      (s.phase c).token? = some t ∧ s' = s.cancel t) ∧
    (∀ s', s.Happens (.interrupt false) s' → s' = s) ∧
    ∀ hit s', s.Happens (.interrupt hit) s' → ∀ waiting m c begun t later s'',
      s'.Leads waiting m → m.phase c = .locked → m.Happens (.advance c) begun →
      begun.phase c = .installed t → begun.Leads later s'' → s''.executor.isCancelled t = true →
      ∃ before after n, later = before ++ .interrupt true :: after ∧ begun.Leads before n ∧
        n.executor.current = some t := by
  have horder := initial_orderly.leads h
  refine ⟨horder.holder_iff, ?_, ?_, ?_, ?_, ?_⟩
  · intro c c' hc hc'
    have hholds := (horder.holder_iff c).mpr hc
    rw [(horder.holder_iff c').mpr hc', Option.some.injEq] at hholds
    exact hholds.symm
  · exact horder.running_of_executing
  · intro s' hhit
    rcases hhit.interrupt_cases with ⟨t, hcurrent, -, hcancel⟩ | ⟨-, hmissed, -⟩
    · obtain ⟨c, hholder, htoken⟩ := horder.holder_of_current hcurrent
      exact ⟨c, t, hholder, htoken, hcancel⟩
    · cases hmissed
  · intro s' hmiss
    rcases hmiss.interrupt_cases with ⟨-, -, hhit, -⟩ | ⟨-, -, hsame⟩
    · cases hhit
    · exact hsame
  · intro hit s' hinterrupt waiting m c begun t later s'' hwaiting hlocked hbegun hinstalled hlater
      hcancelled
    have hm := (horder.happens hinterrupt).leads hwaiting
    cases hbegun with
    | advance step =>
      have hfresh := hm.not_cancelled_of_install step hlocked hinstalled
      rcases hlater.cancelled hcancelled with ht | hfound
      · rw [hfresh] at ht
        cases ht
      · exact hfound

/-- One caller is hit in flight and finishes; the next one starts and reads that it may go on. -/
theorem interrupts_hit_holder_handover : ∃ first hit free begun last,
    initial.Leads [.advance 0, .advance 0, .advance 0] first ∧
    first.Happens (.interrupt true) hit ∧ hit.Happens (.poll 0 true) hit ∧
    hit.Leads [.advance 0, .advance 0, .advance 0, .advance 1] free ∧
    free.phase 1 = .locked ∧ free.Happens (.advance 1) begun ∧ begun.phase 1 = .installed 1 ∧
    begun.Leads [.advance 1] last ∧ last.Happens (.poll 1 false) last := by
  obtain ⟨first, hit, free, begun, last, hfirst, hhit, hpoll, hfree, hlocked, hbegun, hinstalled,
      hlast, hrunning⟩ : ∃ first hit free begun last,
      initial.Leads [.advance 0, .advance 0, .advance 0] first ∧
      first.Happens (.interrupt true) hit ∧ hit.Happens (.poll 0 true) hit ∧
      hit.Leads [.advance 0, .advance 0, .advance 0, .advance 1] free ∧
      free.phase 1 = .locked ∧ free.Happens (.advance 1) begun ∧ begun.phase 1 = .installed 1 ∧
      begun.Leads [.advance 1] last ∧ last.phase 1 = .running 1 :=
    ⟨_, _, _, _, _,
      .cons (.advance rfl) (.cons (.advance rfl) (.cons (.advance rfl) .start)),
      .interrupt _, .poll (t := 0) rfl,
      .cons (.advance rfl) (.cons (.advance rfl) (.cons (.advance rfl) (.cons (.advance rfl)
        .start))),
      rfl, .advance rfl, rfl, .cons (.advance rfl) .start, rfl⟩
  have hflag : last.executor.isCancelled 1 = false := by
    refine Bool.eq_false_iff.mpr fun hcancelled => ?_
    obtain ⟨-, -, -, -, -, hlater⟩ := interrupts_hit_holder hfirst
    obtain ⟨before, after, n, heq, -, -⟩ :=
      hlater true hit hhit _ free 1 begun 1 _ last hfree hlocked hbegun hinstalled hlast hcancelled
    have hmem : Event.interrupt true ∈ [Event.advance 1] := by
      rw [heq]
      simp
    simp at hmem
  exact ⟨first, hit, free, begun, last, hfirst, hhit, hpoll, hfree, hlocked, hbegun, hinstalled,
    hlast, hflag ▸ .poll hrunning⟩

end System

/-- A run that is interrupted once it is in flight and before it polls leaves the session as it was,
and the executor is free again. -/
theorem Evaluator.runInterrupted_stops {e : Evaluator} {unit : CompiledUnit}
    (hfree : e.executor.holder = none) (hcode : unit.code.body ≠ []) :
    (e.runInterrupted unit).1 = true ∧
      (e.runInterrupted unit).2.result = .error (.stopped .interrupted) ∧
      (e.runInterrupted unit).2.out = "" ∧
      (e.runInterrupted unit).2.evaluator.session = e.session ∧
      (e.runInterrupted unit).2.evaluator.executor.holder = none := by
  have hrun := Machine.run_cancelled_at_once e.session.image e.settings.maxCallDepth roundLimit
    e.session.store hcode
  simp [runInterrupted, runDuring, Executor.start, Executor.acquire, hfree, Executor.install,
    Executor.takeOff, Executor.interrupt, Executor.isCancelled, runWith, hrun, Executor.finish,
    Executor.land, Executor.clear, Executor.release]

end Chunkwise
