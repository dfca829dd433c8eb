import Chunkwise.Proofs.Binder.Scope
import Mathlib.Data.List.Induction

/-!
The scopes of a body after any steps that never leave the root. Frame slots are given in order and never
twice, whereas names are looked up in the scopes that are open. Where a definition stands is read off the
steps alone: its scope is open as long as the steps since then have not left more scopes than they have
entered, and what they have entered and not left lies further in.
-/
namespace Chunkwise

/-- What binding a body does to its scopes. -/
inductive ScopeStep where
  | push (kind : ScopeKind)
  | pop
  | defineLocal (name : String) (type : Ty) (isReadonly : Bool)
  | defineVariable (name : String) (slot : Nat) (type : Ty) (isReadonly : Bool)

namespace ScopeStep

/-- The name that a definition is for. -/
def name? : ScopeStep → Option String
  | defineLocal name _ _ => some name
  | defineVariable name _ _ _ => some name
  | push _ | pop => none

/-- The number of scopes inside a given one after a step, unless the step leaves that one. -/
def level? (level : Nat) : ScopeStep → Option Nat
  | push _ => some (level + 1)
  | pop => if level = 0 then none else some (level - 1)
  | defineLocal .. | defineVariable .. => some level

/-- The number of scopes inside a given one after several steps. -/
def levelAfter? (level : Nat) (steps : List ScopeStep) : Option Nat := steps.foldlM level? level

theorem levelAfter?_concat (level : Nat) (steps : List ScopeStep) (step : ScopeStep) :
    levelAfter? level (steps ++ [step]) = (levelAfter? level steps).bind (level? · step) := by
  simp [levelAfter?, List.foldlM_append]

theorem level?_of_name {step : ScopeStep} {name : String} (h : step.name? = some name) (level : Nat) :
    step.level? level = some level := by
  cases step <;> first | rfl | cases h

/-- One of the steps is such a one, and the scope it was taken in is still open, `level` scopes out from
the innermost one. -/
def Since (P : List ScopeStep → ScopeStep → Prop) (steps : List ScopeStep) (level : Nat) : Prop :=
  ∃ before step since, steps = before ++ step :: since ∧ P before step ∧ levelAfter? 0 since = some level

theorem since_nil {P : List ScopeStep → ScopeStep → Prop} {level : Nat} : ¬Since P [] level := by
  rintro ⟨before, step, since, heq, -⟩
  simp at heq

/-- Either it is the last step, or the last step moves the scopes inside. -/
theorem since_concat {P : List ScopeStep → ScopeStep → Prop} {steps : List ScopeStep} {step : ScopeStep}
    {level : Nat} : Since P (steps ++ [step]) level ↔
      (level = 0 ∧ P steps step) ∨ ∃ inside, Since P steps inside ∧ step.level? inside = some level := by
  constructor
  · rintro ⟨before, taken, since, heq, htaken, hlevel⟩
    induction since using List.reverseRecOn with
    | nil =>
      obtain ⟨rfl, hlast⟩ := List.append_inj' heq rfl
      obtain rfl : step = taken := by simpa using hlast
      exact .inl ⟨by simpa [levelAfter?] using hlevel.symm, htaken⟩
    | append_singleton since last _ =>
      rw [← List.cons_append, ← List.append_assoc] at heq
      obtain ⟨rfl, hlast⟩ := List.append_inj' heq rfl
      obtain rfl : step = last := by simpa using hlast
      rw [levelAfter?_concat] at hlevel
      obtain ⟨inside, hinside, hstep⟩ := Option.bind_eq_some_iff.mp hlevel
      exact .inr ⟨inside, ⟨before, taken, since, rfl, htaken, hinside⟩, hstep⟩
  · rintro (⟨rfl, hlast⟩ | ⟨inside, ⟨before, taken, since, rfl, htaken, hinside⟩, hstep⟩)
    · exact ⟨steps, step, [], rfl, hlast, rfl⟩
    · refine ⟨before, taken, since ++ [step], by simp, htaken, ?_⟩
      rw [levelAfter?_concat, hinside]
      exact hstep

end ScopeStep

namespace Scopes

open ScopeStep

variable {s : Scopes} {kind : ScopeKind} {steps : List ScopeStep} {step : ScopeStep} {level : Nat}
  {name : String} {b : Binding}

/-- The frame slot that a step is answered with. -/
def slot? (s : Scopes) : ScopeStep → Option Nat
  | .defineLocal name type isReadonly => (s.defineLocal name type isReadonly).1
  | _ => none

/-- The name and the binding of a definition, unless it is refused. -/
def granted? (s : Scopes) : ScopeStep → Option (String × Binding)
  | .defineLocal name type isReadonly =>
    (s.defineLocal name type isReadonly).1.map fun slot => (name, .frame slot type isReadonly)
  | .defineVariable name slot type isReadonly =>
    if (s.defineVariable name slot type isReadonly).1 then some (name, .variable slot type isReadonly)
    else none
  | .push _ | .pop => none

def take (s : Scopes) : ScopeStep → Scopes
  | .push kind => s.push kind
  | .pop => s.pop
  | .defineLocal name type isReadonly => (s.defineLocal name type isReadonly).2
  | .defineVariable name slot type isReadonly => (s.defineVariable name slot type isReadonly).2

def after (s : Scopes) (steps : List ScopeStep) : Scopes := steps.foldl take s

/-- The frame slots that the steps are answered with, in order. -/
def slotsGiven (s : Scopes) : List ScopeStep → List Nat
  | [] => []
  | step :: steps => (s.slot? step).toList ++ (s.take step).slotsGiven steps

theorem after_concat (s : Scopes) (steps : List ScopeStep) (step : ScopeStep) :
    s.after (steps ++ [step]) = (s.after steps).take step := by
  simp [after]

theorem granted?_eq_none_iff (h : step.name? = some name) :
    s.granted? step = none ↔ s.definedHere name = true := by
  cases step with
  | push | pop => cases h
  | defineLocal n | defineVariable n =>
    obtain rfl : n = name := Option.some.inj h
    by_cases hhere : s.definedHere n = true <;>
      simp [granted?, defineLocal, defineVariable, hhere]

theorem name_of_granted (h : s.granted? step = some (name, b)) : step.name? = some name := by
  cases step with
  | push | pop => cases h
  | defineLocal n =>
    obtain ⟨slot, -, hslot⟩ := Option.map_eq_some_iff.mp h
    exact congrArg some (Prod.mk.inj hslot).1
  | defineVariable n =>
    simp only [granted?, Option.ite_none_right_eq_some] at h
    exact congrArg some (Prod.mk.inj (Option.some.inj h.2)).1

theorem not_definedHere_of_granted (h : s.granted? step = some (name, b)) :
    s.definedHere name = false := by
  have hrefused := granted?_eq_none_iff (s := s) (name_of_granted h)
  rw [h] at hrefused
  simpa using hrefused

theorem take_of_refused (hname : step.name? = some name) (h : s.granted? step = none) :
    s.take step = s := by
  have hhere := (granted?_eq_none_iff hname).mp h
  cases step with
  | push | pop => cases hname
  | defineLocal n | defineVariable n =>
    obtain rfl : n = name := Option.some.inj hname
    simp [take, defineLocal, defineVariable, hhere]

theorem take_of_granted (h : s.granted? step = some (name, b)) :
    (s.take step).inner = (s.insert name b).inner ∧ (s.take step).root = (s.insert name b).root := by
  have hname := name_of_granted h
  have hhere := not_definedHere_of_granted h
  cases step with
  | push | pop => cases hname
  | defineLocal n | defineVariable n =>
    obtain rfl : n = name := Option.some.inj hname
    have hb := h
    simp [granted?, defineLocal, defineVariable, hhere] at hb
    simp [take, defineLocal, defineVariable, hhere, hb]

theorem all_of_granted (h : s.granted? step = some (name, b)) :
    (s.take step).all =
      { s.innermost with bindings := (name, b) :: s.innermost.bindings } :: s.all.tail := by
  obtain ⟨hinner, hroot⟩ := take_of_granted h
  rw [← insert_all]
  simp [all, hinner, hroot]

theorem take_outer (hname : step.name? = some name) : (s.take step).all.tail = s.all.tail ∧
    (s.take step).inner.length = s.inner.length := by
  cases hgrant : s.granted? step with
  | none => simp [take_of_refused hname hgrant]
  | some granted =>
    have hlength := (insert_leads s granted.1 granted.2).depth
    rw [← (take_of_granted hgrant).1] at hlength
    exact ⟨by rw [all_of_granted hgrant, List.tail_cons], hlength⟩

theorem take_rootKind (s : Scopes) (step : ScopeStep) : (s.take step).root.kind = s.root.kind := by
  cases hname : step.name? with
  | none => cases step <;> first | rfl | cases hname
  | some name =>
    cases hgrant : s.granted? step with
    | none => rw [take_of_refused hname hgrant]
    | some granted =>
      rw [(take_of_granted hgrant).2]
      unfold insert
      cases s.inner <;> rfl

theorem pop_all (h : 0 < s.inner.length) : s.pop.all = s.all.tail := by
  unfold pop all
  cases hinner : s.inner with
  | nil => simp [hinner] at h
  | cons scope rest => rfl

theorem after_rootKind (s : Scopes) (steps : List ScopeStep) :
    (s.after steps).root.kind = s.root.kind := by
  induction steps generalizing s with
  | nil => rfl
  | cons step steps ih => exact (ih (s.take step)).trans (take_rootKind s step)

/-- Steps that do not leave the scope `n` scopes out leave alone what lies around it. -/
theorem after_outer {n m : Nat} (h : levelAfter? n steps = some m) (hn : n ≤ s.inner.length) :
    (s.after steps).all.drop (m + 1) = s.all.drop (n + 1) ∧
      (s.after steps).inner.length + n = s.inner.length + m := by
  induction steps generalizing s n with
  | nil =>
    obtain rfl : n = m := by simpa [levelAfter?] using h
    exact ⟨rfl, rfl⟩
  | cons step steps ih =>
    rw [levelAfter?, List.foldlM_cons] at h
    obtain ⟨k, hstep, hrest⟩ := Option.bind_eq_some_iff.mp h
    cases hname : step.name? with
    | some name =>
      obtain rfl : n = k := by simpa [level?_of_name hname] using hstep
      obtain ⟨hall, hlength⟩ := take_outer (s := s) hname
      obtain ⟨hdrop, hinner⟩ := ih hrest (hlength ▸ hn)
      rw [hlength] at hinner
      refine ⟨hdrop.trans ?_, hinner⟩
      rw [← List.drop_tail, ← List.drop_tail, hall]
    | none =>
      cases step with
      | defineLocal | defineVariable => cases hname
      | push kind =>
        obtain rfl : n + 1 = k := by simpa [level?] using hstep
        have hlength : (s.push kind).inner.length = s.inner.length + 1 := rfl
        obtain ⟨hdrop, hinner⟩ := ih (s := s.push kind) hrest (by omega)
        rw [hlength] at hinner
        exact ⟨hdrop, by simp only [after, List.foldl_cons, take] at hinner ⊢; omega⟩
      | pop =>
        obtain ⟨hpos, rfl⟩ : n ≠ 0 ∧ n - 1 = k := by simpa [level?] using hstep
        have hlength : s.pop.inner.length = s.inner.length - 1 := by simp [pop]
        obtain ⟨hdrop, hinner⟩ := ih (s := s.pop) hrest (by omega)
        rw [pop_all (by omega), List.drop_tail] at hdrop
        obtain ⟨n, rfl⟩ := Nat.exists_eq_add_one_of_ne_zero hpos
        exact ⟨hdrop, by simp only [after, List.foldl_cons, take] at hinner ⊢; omega⟩

theorem after_inner_length {n : Nat} (h : levelAfter? 0 steps = some n) :
    ((ofKind kind).after steps).inner.length = n := by
  have houter := (after_outer (s := ofKind kind) h (Nat.zero_le _)).2
  simpa [ofKind] using houter

theorem after_left (s : Scopes) (kind : ScopeKind) (h : levelAfter? 0 steps = some 0) :
    (s.after (.push kind :: (steps ++ [ScopeStep.pop]))).all = s.all := by
  obtain ⟨hdrop, hlength⟩ := after_outer (s := s.push kind) h (Nat.zero_le _)
  have hpos : 0 < ((s.push kind).after steps).inner.length := by
    have hpushed : (s.push kind).inner.length = s.inner.length + 1 := rfl
    omega
  have hpopped : (s.after (.push kind :: (steps ++ [ScopeStep.pop]))).all = ((s.push kind).after steps).pop.all := by
    simp [after, take]
  rw [hpopped, pop_all hpos, ← List.drop_one, hdrop]
  rfl

theorem take_slots (s : Scopes) (step : ScopeStep) :
    List.range s.nextSlot ++ (s.slot? step).toList = List.range (s.take step).nextSlot := by
  cases step with
  | push | pop => simp [slot?, take, push, pop]
  | defineLocal name =>
    by_cases hhere : s.definedHere name = true <;>
      simp [slot?, take, defineLocal, hhere, List.range_succ]
  | defineVariable name =>
    by_cases hhere : s.definedHere name = true <;>
      simp [slot?, take, defineVariable, hhere]

theorem slotsGiven_eq (s : Scopes) (steps : List ScopeStep) :
    List.range s.nextSlot ++ s.slotsGiven steps = List.range (s.after steps).nextSlot := by
  induction steps generalizing s with
  | nil => simp [slotsGiven, after]
  | cons step steps ih =>
    have hnext := ih (s.take step)
    rw [← take_slots, List.append_assoc] at hnext
    exact hnext

/-- What the scope `level` scopes out from the innermost one binds a name to. -/
def boundAt (s : Scopes) (level : Nat) (name : String) : Option Binding :=
  s.all[level]?.bind fun scope => scope.bindings.lookup name

theorem boundAt_zero (s : Scopes) (name : String) :
    s.boundAt 0 name = s.innermost.bindings.lookup name := by
  rw [boundAt, all_eq]
  rfl

theorem lookup_eq_some_iff (s : Scopes) (name : String) (b : Binding) : s.lookup name = some b ↔
    ∃ level, s.boundAt level name = some b ∧ ∀ inside < level, s.boundAt inside name = none := by
  unfold lookup
  rw [List.findSome?_eq_some_iff]
  constructor
  · rintro ⟨before, scope, around, hall, hscope, hbefore⟩
    refine ⟨before.length, by simp [boundAt, hall, hscope], fun inside hinside => ?_⟩
    rw [boundAt, hall, List.getElem?_append_left hinside, List.getElem?_eq_getElem hinside]
    exact hbefore _ (List.getElem_mem hinside)
  · rintro ⟨level, hlevel, hinside⟩
    obtain ⟨scope, hscope, hb⟩ := Option.bind_eq_some_iff.mp hlevel
    obtain ⟨hlt, rfl⟩ := List.getElem?_eq_some_iff.mp hscope
    refine ⟨s.all.take level, s.all[level], s.all.drop (level + 1), by simp, hb, ?_⟩
    intro other hother
    obtain ⟨i, hi, rfl⟩ := List.mem_take_iff_getElem.mp hother
    have hnone := hinside i (by omega)
    simpa [boundAt, List.getElem?_eq_getElem (show i < s.all.length by omega)] using hnone

theorem boundAt_push_succ (s : Scopes) (kind : ScopeKind) (level : Nat) (name : String) :
    (s.push kind).boundAt (level + 1) name = s.boundAt level name := rfl

theorem boundAt_pop (h : 0 < s.inner.length) (level : Nat) (name : String) :
    s.pop.boundAt level name = s.boundAt (level + 1) name := by
  simp [boundAt, pop_all h]

theorem boundAt_of_granted {n : String} (h : s.granted? step = some (n, b)) (level : Nat) (name : String) :
    (s.take step).boundAt level name =
      if level = 0 ∧ name = n then some b else s.boundAt level name := by
  unfold boundAt
  rw [all_of_granted h, all_eq s]
  cases level with
  | zero =>
    by_cases hname : name = n
    · simp [hname]
    · have hother : (name == n) = false := beq_eq_false_iff_ne.mpr hname
      simp [List.lookup_cons, hname, hother]
  | succ level => simp

/-- The scope `level` scopes out from the innermost one is still open and was given a binding for a name. -/
def Gave (kind : ScopeKind) (steps : List ScopeStep) (name : String) (b : Binding) (level : Nat) : Prop :=
  Since (fun before step => ((ofKind kind).after before).granted? step = some (name, b)) steps level

/-- A scope binds a name to what it was given for it since it was entered. -/
theorem boundAt_after_iff {n : Nat} (h : levelAfter? 0 steps = some n) :
    ((ofKind kind).after steps).boundAt level name = some b ↔ Gave kind steps name b level := by
  unfold Gave
  induction steps using List.reverseRecOn generalizing n level with
  | nil =>
    have hempty : (ofKind kind).boundAt level name = none := by
      cases level <;> simp [boundAt, ofKind, all]
    simp [after, hempty, since_nil]
  | append_singleton steps step ih =>
    rw [levelAfter?_concat] at h
    obtain ⟨m, hm, hstep⟩ := Option.bind_eq_some_iff.mp h
    have hlength : ((ofKind kind).after steps).inner.length = m := after_inner_length hm
    have hprior : ∀ level, ((ofKind kind).after steps).boundAt level name = some b ↔
        Since (fun before step => ((ofKind kind).after before).granted? step = some (name, b)) steps level :=
      fun _ => ih hm
    rw [since_concat, after_concat]
    cases hname : step.name? with
    | some n =>
      simp only [level?_of_name hname, Option.some.injEq, exists_eq_right, ← hprior]
      cases hgrant : ((ofKind kind).after steps).granted? step with
      | none => simp [take_of_refused hname hgrant]
      | some granted =>
        obtain ⟨n', b'⟩ := granted
        -- A name is granted once for each scope, so the new binding hides no older one of the same scope.
        have hfree : ((ofKind kind).after steps).boundAt 0 n' = none := by
          have hhere := not_definedHere_of_granted hgrant
          rw [boundAt_zero]
          simpa [definedHere] using hhere
        rw [boundAt_of_granted hgrant]
        by_cases hhere : level = 0 ∧ name = n'
        · obtain ⟨rfl, rfl⟩ := hhere
          simp [hfree]
        · have hother : ¬(level = 0 ∧ n' = name ∧ b' = b) := fun h => hhere ⟨h.1, h.2.1.symm⟩
          simp [hhere, hother]
    | none =>
      cases step with
      | defineLocal | defineVariable => cases hname
      | push pushed =>
        cases level with
        | zero => simp [take, granted?, level?, boundAt, push, all]
        | succ level =>
          simp [take, granted?, level?, boundAt_push_succ, hprior]
      | pop =>
        obtain ⟨hpos, -⟩ : m ≠ 0 ∧ m - 1 = n := by simpa [level?] using hstep
        have hleft : ∀ inside, ScopeStep.pop.level? inside = some level ↔ inside = level + 1 := by
          intro inside
          simp only [level?, Option.ite_none_left_eq_some, Option.some.injEq]
          omega
        rw [take, boundAt_pop (by omega), hprior]
        simp [granted?, hleft]

/-- The kinds of the scopes inside the root, innermost first. -/
def kinds (s : Scopes) : List ScopeKind := s.inner.map Scope.kind

theorem take_kinds (hname : step.name? = some name) : (s.take step).kinds = s.kinds := by
  cases hgrant : s.granted? step with
  | none => rw [take_of_refused hname hgrant]
  | some granted =>
    unfold kinds
    rw [(take_of_granted hgrant).1]
    unfold insert
    cases s.inner <;> simp

/-- The scopes that are open are those entered and not left since. -/
theorem kinds_after_iff {n : Nat} {entered : ScopeKind} (h : levelAfter? 0 steps = some n) :
    ((ofKind kind).after steps).kinds[level]? = some entered ↔
      Since (fun _ step => step = .push entered) steps level := by
  induction steps using List.reverseRecOn generalizing n level with
  | nil => simp [after, kinds, ofKind, since_nil]
  | append_singleton steps step ih =>
    rw [levelAfter?_concat] at h
    obtain ⟨m, hm, hstep⟩ := Option.bind_eq_some_iff.mp h
    have hprior : ∀ level : Nat, ((ofKind kind).after steps).kinds[level]? = some entered ↔
        Since (fun _ step => step = .push entered) steps level := fun _ => ih hm
    rw [since_concat, after_concat]
    cases hname : step.name? with
    | some name =>
      have hpush : step ≠ .push entered := by
        rintro rfl
        cases hname
      simp [take_kinds hname, level?_of_name hname, ← hprior, hpush]
    | none =>
      cases step with
      | defineLocal | defineVariable => cases hname
      | push pushed =>
        have hkinds : (((ofKind kind).after steps).push pushed).kinds =
            pushed :: ((ofKind kind).after steps).kinds := rfl
        cases level with
        | zero => simp [take, hkinds, level?]
        | succ level => simp [take, hkinds, level?, hprior]
      | pop =>
        have hkinds : ((ofKind kind).after steps).pop.kinds = ((ofKind kind).after steps).kinds.tail := by
          simp [kinds, pop]
        have hleft : ∀ inside, ScopeStep.pop.level? inside = some level ↔ inside = level + 1 := by
          intro inside
          simp only [level?, Option.ite_none_left_eq_some, Option.some.injEq]
          omega
        simp [take, hkinds, hprior, hleft]

theorem inLoop_iff (s : Scopes) :
    s.inLoop = true ↔ s.root.kind = .loop ∨ ∃ level : Nat, s.kinds[level]? = some .loop := by
  rw [← List.mem_iff_getElem?]
  simp [inLoop, all, kinds, or_comm]

/-- Scopes follow stack discipline, whatever steps are taken as long as the root is never left. The frame
slots given are those from zero on, each once, and as many as the body needs. A definition is refused
exactly if the innermost open scope has been given its name since it was entered. A name means what the
innermost open scope that was given it was given for it, and a jump has a loop to leave exactly if a loop
is still open. Leaving a scope gives back every name and the loops around from before it was entered, and
the top of a chunk is where no scope is open inside a root for variables of the session. -/
theorem stack_discipline (kind : ScopeKind) (steps : List ScopeStep) (n : Nat)
    (h : levelAfter? 0 steps = some n) :
    let s := (ofKind kind).after steps
    (ofKind kind).slotsGiven steps = List.range s.slotCount ∧
    (∀ step name, step.name? = some name → (s.granted? step = none ↔ ∃ b, Gave kind steps name b 0)) ∧
    (∀ name b, s.lookup name = some b ↔
      ∃ level, Gave kind steps name b level ∧ ∀ inside < level, ∀ b', ¬Gave kind steps name b' inside) ∧
    (s.inLoop = true ↔
      kind = .loop ∨ ∃ level, Since (fun _ step => step = .push .loop) steps level) ∧
    (∀ before entered body, steps = before ++ .push entered :: (body ++ [.pop]) →
      levelAfter? 0 body = some 0 →
      (∀ name, s.lookup name = ((ofKind kind).after before).lookup name) ∧
        s.inLoop = ((ofKind kind).after before).inLoop) ∧
    (s.atHostTop = true ↔ kind = .host ∧ n = 0) := by
  intro s
  have hgave : ∀ name b level, s.boundAt level name = some b ↔ Gave kind steps name b level :=
    fun _ _ _ => boundAt_after_iff h
  have hroot : s.root.kind = kind := after_rootKind _ _
  have hinner : s.inner.length = n := after_inner_length h
  refine ⟨slotsGiven_eq (ofKind kind) steps, ?_, ?_, ?_, ?_, ?_⟩
  · intro step name hname
    rw [granted?_eq_none_iff hname, definedHere, ← boundAt_zero, Option.isSome_iff_exists]
    simp only [hgave]
  · intro name b
    rw [lookup_eq_some_iff]
    simp only [← hgave, Option.eq_none_iff_forall_ne_some, ne_eq]
  · rw [inLoop_iff, hroot]
    simp only [s, kinds_after_iff h]
  · rintro before entered body rfl hbody
    have hall : s.all = ((ofKind kind).after before).all := by
      have hleft := after_left ((ofKind kind).after before) entered hbody
      simpa [s, after] using hleft
    exact ⟨fun name => by simp only [lookup, hall], by simp only [inLoop, hall]⟩
  · rw [atHostTop, Bool.and_eq_true, List.isEmpty_iff, ← List.length_eq_zero_iff, hinner, hroot, beq_iff_eq,
      and_comm]

/-- A name is defined twice in a method and once more in a block inside a loop, which is left again. -/
def shadowing : List ScopeStep :=
  [.defineLocal "x" .int false, .defineLocal "x" .string false, .push .loop, .push .block,
    .defineLocal "x" .string false, .pop]

/-- The second definition is refused, the third one takes the next slot, and once the block is left the
first one is back, still inside the loop. -/
theorem stack_discipline_shadowing :
    levelAfter? 0 shadowing = some 1 ∧ (ofKind .method).slotsGiven shadowing = [0, 1] ∧
      ((ofKind .method).after shadowing).lookup "x" = some (.frame 0 .int false) ∧
      ((ofKind .method).after shadowing).inLoop = true := by
  have hlevel : levelAfter? 0 shadowing = some 1 := rfl
  obtain ⟨hslots, -, -, -, hleft, -⟩ := stack_discipline .method shadowing 1 hlevel
  obtain ⟨hlookup, hloop⟩ := hleft (shadowing.take 3) .block [.defineLocal "x" .string false] rfl rfl
  exact ⟨hlevel, hslots.trans (by decide), (hlookup "x").trans (by decide), hloop.trans (by decide)⟩

end Scopes

end Chunkwise
