import Chunkwise.Proofs.Binder.Expr
import Mathlib.Algebra.GroupWithZero.Nat

/-!
A call means the candidate that takes its arguments at the least total cost of conversion, the first
declared of those that are equally cheap. If there is none, the call is refused with one issue, and
otherwise every argument converts to its parameter.
-/
namespace Chunkwise

open Attempt

/-- What it costs to convert a type to one to which it converts. -/
def Ty.distance (arg param : Ty) : Nat :=
  if arg = param then 0
  else match arg, param with
    | .int, .long => 1
    | .int, .double | .long, .double => 2
    | _, _ => 3

/-- The total cost of passing arguments to a method that takes them. -/
def Method.distance (m : Method) (args : List Ty) : Nat :=
  (List.zipWith Ty.distance args m.paramTypes).sum

/-- An argument as it is passed for a parameter. -/
def Arg.passedFor (a : Arg) (param : Ty) : BoundExpr :=
  if a.type.isIntegral = true ∧ param = .double then .widen a.expr else a.expr

namespace Image

variable {α : Type} {im : Image}

/-- A method takes arguments of these types: one for each parameter, and each of them converts. -/
def Takes (im : Image) (m : Method) (args : List Ty) : Prop :=
  List.Forall₂ (fun arg param => im.isAssignable arg param = true) args m.paramTypes

/-- A candidate takes the arguments, and no candidate before it is as cheap and none after it is
cheaper. -/
def Prefers (im : Image) (candidates : List (α × Method)) (args : List Ty) (c : α × Method) : Prop :=
  im.Takes c.2 args ∧ ∃ earlier later, candidates = earlier ++ c :: later ∧
    (∀ x ∈ earlier, im.Takes x.2 args → c.2.distance args < x.2.distance args) ∧
    ∀ x ∈ later, im.Takes x.2 args → c.2.distance args ≤ x.2.distance args

theorem conversionCost?_eq (im : Image) (arg param : Ty) : im.conversionCost? arg param =
    if im.isAssignable arg param then some (arg.distance param) else none := by
  unfold conversionCost? Ty.distance
  by_cases heq : arg = param
  · have hself : im.isAssignable param param = true := by simp [isAssignable]
    rw [if_pos heq, if_pos heq, heq, if_pos hself]
  · rw [if_neg heq, if_neg heq]
    refine if_congr Iff.rfl ?_ rfl
    split <;> simp_all

/-- A total cost is the sum of the costs of arguments that all convert. -/
theorem totalCost?_eq_some {args params : List Ty} (hlen : params.length = args.length) {cost : Nat} :
    im.totalCost? args params = some cost ↔
      List.Forall₂ (fun arg param => im.isAssignable arg param = true) args params ∧
        (List.zipWith Ty.distance args params).sum = cost := by
  induction args generalizing params cost with
  | nil =>
    obtain rfl := List.length_eq_zero_iff.mp hlen
    simp [totalCost?]
  | cons arg args ih =>
    cases params with
    | nil => cases hlen
    | cons param params =>
      have htail := @ih params (by simpa using hlen)
      rw [totalCost?, conversionCost?_eq, List.forall₂_cons, List.zipWith_cons_cons, List.sum_cons]
      by_cases hhead : im.isAssignable arg param = true
      · rw [if_pos hhead]
        cases hrest : im.totalCost? args params with
        | none =>
          have hnone : ¬List.Forall₂ (fun arg param => im.isAssignable arg param = true) args params :=
            fun hall => by simpa [hrest] using htail.mpr ⟨hall, rfl⟩
          simp [hnone]
        | some rest =>
          obtain ⟨hall, hsum⟩ := htail.mp hrest
          simp [hhead, hall, hsum]
      · simp [hhead]

/-- The price of a candidate for these arguments, if it takes them. -/
def priced? (im : Image) (args : List Ty) (c : α × Method) : Option (Nat × (α × Method)) :=
  if c.2.params.length = args.length then
    (im.totalCost? args c.2.paramTypes).map fun cost => (cost, c)
  else none

theorem priced?_eq_some {args : List Ty} {c : α × Method} {x : Nat × (α × Method)} :
    im.priced? args c = some x ↔ im.Takes c.2 args ∧ x = (c.2.distance args, c) := by
  unfold priced?
  by_cases hlen : c.2.params.length = args.length
  · have htypes : c.2.paramTypes.length = args.length := by simpa [Method.paramTypes] using hlen
    rw [if_pos hlen, Option.map_eq_some_iff]
    constructor
    · rintro ⟨cost, hcost, rfl⟩
      obtain ⟨htakes, rfl⟩ := (totalCost?_eq_some htypes).mp hcost
      exact ⟨htakes, rfl⟩
    · rintro ⟨htakes, rfl⟩
      exact ⟨_, (totalCost?_eq_some htypes).mpr ⟨htakes, rfl⟩, rfl⟩
  · rw [if_neg hlen]
    refine ⟨fun h => (by cases h), fun h => absurd ?_ hlen⟩
    simpa [Method.paramTypes] using h.1.length_eq.symm

theorem priced?_eq_none {args : List Ty} {c : α × Method} :
    im.priced? args c = none ↔ ¬im.Takes c.2 args := by
  constructor
  · intro h htakes
    rw [priced?_eq_some.mpr ⟨htakes, rfl⟩] at h
    cases h
  · intro h
    cases hx : im.priced? args c with
    | none => rfl
    | some x => exact absurd (priced?_eq_some.mp hx).1 h

theorem foldl_cheaper_some {xs : List (Nat × α)} {best x : Nat × α}
    (h : xs.foldl cheaper (some best) = some x) :
    (x = best ∧ ∀ y ∈ xs, best.1 ≤ y.1) ∨ x.1 < best.1 ∧ ∃ earlier later,
      xs = earlier ++ x :: later ∧ (∀ y ∈ earlier, x.1 < y.1) ∧ ∀ y ∈ later, x.1 ≤ y.1 := by
  induction xs generalizing best with
  | nil =>
    cases h
    exact .inl ⟨rfl, by simp⟩
  | cons z zs ih =>
    rw [List.foldl_cons, cheaper] at h
    by_cases hz : z.1 < best.1
    · rw [if_pos hz] at h
      rcases ih h with ⟨rfl, hrest⟩ | ⟨hlt, earlier, later, rfl, hearlier, hlater⟩
      · exact .inr ⟨hz, [], zs, rfl, by simp, hrest⟩
      · refine .inr ⟨Nat.lt_trans hlt hz, z :: earlier, later, rfl, fun y hy => ?_, hlater⟩
        rcases List.mem_cons.mp hy with rfl | hy
        · exact hlt
        · exact hearlier y hy
    · rw [if_neg hz] at h
      rcases ih h with ⟨rfl, hrest⟩ | ⟨hlt, earlier, later, rfl, hearlier, hlater⟩
      · refine .inl ⟨rfl, fun y hy => ?_⟩
        rcases List.mem_cons.mp hy with rfl | hy
        · exact Nat.le_of_not_lt hz
        · exact hrest y hy
      · refine .inr ⟨hlt, z :: earlier, later, rfl, fun y hy => ?_, hlater⟩
        rcases List.mem_cons.mp hy with rfl | hy
        · omega
        · exact hearlier y hy

theorem foldl_cheaper_none {xs : List (Nat × α)} {x : Nat × α}
    (h : xs.foldl cheaper none = some x) : ∃ earlier later,
      xs = earlier ++ x :: later ∧ (∀ y ∈ earlier, x.1 < y.1) ∧ ∀ y ∈ later, x.1 ≤ y.1 := by
  cases xs with
  | nil => cases h
  | cons z zs =>
    rcases foldl_cheaper_some h with ⟨rfl, hrest⟩ | ⟨hlt, earlier, later, rfl, hearlier, hlater⟩
    · exact ⟨[], zs, rfl, by simp, hrest⟩
    · refine ⟨z :: earlier, later, rfl, fun y hy => ?_, hlater⟩
      rcases List.mem_cons.mp hy with rfl | hy
      · exact hlt
      · exact hearlier y hy

theorem foldl_cheaper_eq_none {xs : List (Nat × α)} (h : xs.foldl cheaper none = none) : xs = [] := by
  have hsome : ∀ (ys : List (Nat × α)) best, ys.foldl cheaper (some best) ≠ none := by
    intro ys
    induction ys with
    | nil => simp
    | cons y ys ih =>
      intro best
      rw [List.foldl_cons, cheaper]
      split <;> exact ih _
  cases xs with
  | nil => rfl
  | cons x xs => exact absurd h (hsome xs x)

theorem cheapest?_eq (im : Image) (args : List Ty) (candidates : List (α × Method)) :
    im.cheapest? args (candidates.filter fun c => c.2.params.length == args.length) =
      ((candidates.filterMap (im.priced? args)).foldl cheaper none).map Prod.snd := by
  unfold cheapest? priced?
  simp only [List.filterMap_filter, beq_iff_eq]

theorem prefers_of_cheapest {args : List Ty} {candidates : List (α × Method)} {x : Nat × (α × Method)}
    (h : (candidates.filterMap (im.priced? args)).foldl cheaper none = some x) :
    im.Prefers candidates args x.2 := by
  obtain ⟨costlier, later, heq, hcostlier, hlater⟩ := foldl_cheaper_none h
  obtain ⟨before, rest, rfl, rfl, hrest⟩ := List.filterMap_eq_append_iff.mp heq
  obtain ⟨skipped, c, after, rfl, hskipped, hc, rfl⟩ := List.filterMap_eq_cons_iff.mp hrest
  obtain ⟨htakes, rfl⟩ := priced?_eq_some.mp hc
  refine ⟨htakes, before ++ skipped, after, by simp, fun y hy hty => ?_, fun y hy hty => ?_⟩
  · rcases List.mem_append.mp hy with hy | hy
    · exact hcostlier (_, y) (List.mem_filterMap.mpr ⟨y, hy, priced?_eq_some.mpr ⟨hty, rfl⟩⟩)
    · exact absurd hty (priced?_eq_none.mp (hskipped y hy))
  · exact hlater (_, y) (List.mem_filterMap.mpr ⟨y, hy, priced?_eq_some.mpr ⟨hty, rfl⟩⟩)

theorem not_takes_of_cheapest {args : List Ty} {candidates : List (α × Method)}
    (h : (candidates.filterMap (im.priced? args)).foldl cheaper none = none) {c : α × Method}
    (hc : c ∈ candidates) : ¬im.Takes c.2 args :=
  priced?_eq_none.mp (List.filterMap_eq_nil_iff.mp (foldl_cheaper_eq_none h) c hc)

/-- The candidate that is preferred, or none of them takes the arguments. -/
theorem selectOverload_cases (im : Image) (candidates : List (α × Method)) (args : List Ty) :
    (∃ c, im.selectOverload candidates args = .ok c ∧ im.Prefers candidates args c) ∨
      (∃ why, im.selectOverload candidates args = .error why) ∧
        ∀ c ∈ candidates, ¬im.Takes c.2 args := by
  unfold selectOverload
  simp only [cheapest?_eq]
  split
  · next hempty =>
    refine .inr ⟨⟨_, rfl⟩, fun c hc htakes => ?_⟩
    have hnone := List.filter_eq_nil_iff.mp (List.isEmpty_iff.mp hempty) c hc
    exact hnone (by simpa [Method.paramTypes] using htakes.length_eq.symm)
  · cases hbest : (candidates.filterMap (im.priced? args)).foldl cheaper none with
    | some x => exact .inl ⟨x.2, rfl, prefers_of_cheapest hbest⟩
    | none => exact .inr ⟨⟨_, rfl⟩, fun c hc => not_takes_of_cheapest hbest hc⟩

theorem takes_self (im : Image) (m : Method) : im.Takes m m.paramTypes := by
  unfold Takes
  exact List.forall₂_same.mpr fun t _ => by simp [isAssignable]

theorem distance_self (m : Method) : m.distance m.paramTypes = 0 := by
  simp [Method.distance, Ty.distance]

theorem paramTypes_of_distance {m : Method} {args : List Ty} (h : im.Takes m args)
    (hzero : m.distance args = 0) : m.paramTypes = args := by
  unfold Takes at h
  unfold Method.distance at hzero
  generalize m.paramTypes = params at h hzero ⊢
  induction h with
  | nil => rfl
  | @cons arg param args params _ _ ih =>
    rw [List.zipWith_cons_cons, List.sum_cons, Nat.add_eq_zero_iff] at hzero
    have hsame : arg = param := by
      by_contra hne
      have := hzero.1
      unfold Ty.distance at this
      rw [if_neg hne] at this
      split at this <;> omega
    rw [hsame, ih hzero.2]

/-- A candidate whose parameters have the types of the arguments wins against all others. -/
theorem Prefers.exact {candidates : List (α × Method)} {args : List Ty} {c x : α × Method}
    (h : im.Prefers candidates args c) (hx : x ∈ candidates) (htypes : x.2.paramTypes = args) :
    c.2.paramTypes = args := by
  obtain ⟨htakes, earlier, later, rfl, hearlier, hlater⟩ := h
  have hxtakes : im.Takes x.2 args := htypes ▸ im.takes_self x.2
  have hxzero : x.2.distance args = 0 := htypes ▸ distance_self x.2
  rcases List.mem_append.mp hx with hx | hx
  · have := hearlier x hx hxtakes
    omega
  · rcases List.mem_cons.mp hx with rfl | hx
    · exact htypes
    · have := hlater x hx hxtakes
      exact paramTypes_of_distance htakes (by omega)

end Image

namespace Bind

variable {α : Type}

theorem coerce_run {s : BindState} {a : Arg} {param : Ty} (span : Span)
    (h : s.image.isAssignable a.type param = true) :
    coerce a.expr a.type param span s = (some (a.passedFor param), s) := by
  unfold coerce Arg.passedFor
  by_cases hsame : a.type = param
  · have hkeep : ¬(a.type.isIntegral = true ∧ param = .double) := by
      rintro ⟨hint, rfl⟩
      rw [hsame] at hint
      cases hint
    rw [if_pos hsame, if_neg hkeep]
    rfl
  · rw [if_neg hsame]
    by_cases hwiden : a.type.isIntegral = true ∧ param = .double
    · rw [if_pos (by simpa using hwiden), if_pos hwiden]
      rfl
    · rw [if_neg (by simpa using hwiden), if_neg hwiden]
      change (if s.image.isAssignable a.type param = true then (pure a.expr : Bind BoundExpr)
        else refuse _ span) s = _
      rw [if_pos h]
      rfl

theorem convertArgs_run {s : BindState} {m : Method} {args : List Arg}
    (h : s.image.Takes m (args.map Arg.type)) :
    convertArgs m args s = (some (List.zipWith Arg.passedFor args m.paramTypes), s) := by
  have hpairs : ∀ x ∈ m.paramTypes.zip args, s.image.isAssignable x.2.type x.1 = true := by
    unfold Image.Takes at h
    rw [List.forall₂_map_left_iff] at h
    exact fun x hx => (List.forall₂_iff_zip.mp h.flip).2 hx
  have hall := forAll_run (g := fun x : Ty × Arg => x.2.passedFor x.1) fun x hx =>
    coerce_run x.2.span (hpairs x hx)
  change Attempt.bind (forAll _ _) (fun converted => ofOption (allSome converted)) s = _
  rw [Attempt.bind, hall]
  have hsome := allSome_map_some ((m.paramTypes.zip args).map fun x => x.2.passedFor x.1)
  rw [List.map_map] at hsome
  have hzip : (m.paramTypes.zip args).map (fun x => x.2.passedFor x.1) =
      List.zipWith Arg.passedFor args m.paramTypes := by
    rw [List.map_zip_eq_zipWith, List.zipWith_comm]
    rfl
  rw [hzip] at hsome
  exact congrArg (·, s) hsome

/-- A call means the candidate with the cheapest conversions, the first declared of those that are
equally cheap, so that one with the very types of the arguments wins; each of its arguments converts,
and just the integers passed for doubles are widened. It is refused, with one issue, exactly if no
candidate takes the arguments. -/
theorem chooseOverload_optimal (s : BindState) (name : String) (candidates : List (α × Method))
    (args : List Arg) (span : Span) :
    (∀ c s', chooseOverload name candidates args span s = (some c, s') →
      s' = s ∧ s.image.Prefers candidates (args.map Arg.type) c ∧
      (∀ x ∈ candidates, x.2.paramTypes = args.map Arg.type →
        c.2.paramTypes = args.map Arg.type) ∧
      convertArgs c.2 args s' = (some (List.zipWith Arg.passedFor args c.2.paramTypes), s')) ∧
    ((chooseOverload name candidates args span s).1 = none ↔
      ∀ c ∈ candidates, ¬s.image.Takes c.2 (args.map Arg.type)) ∧
    ∀ s', chooseOverload name candidates args span s = (none, s') →
      ∃ problem, s' = { s with issues := s.issues.push ⟨problem, span⟩ } := by
  rcases s.image.selectOverload_cases candidates (args.map Arg.type) with
    ⟨c, hc, hprefers⟩ | ⟨⟨why, hwhy⟩, hnone⟩
  · have hchosen : chooseOverload name candidates args span s = (some c, s) := by
      unfold chooseOverload
      rw [bind_eq_of_run (show image s = (some s.image, s) from rfl), hc]
      rfl
    rw [hchosen]
    refine ⟨?_, ?_, ?_⟩
    · intro c' s' heq
      cases heq
      exact ⟨rfl, hprefers, fun x hx htypes => hprefers.exact hx htypes, convertArgs_run hprefers.1⟩
    · obtain ⟨htakes, earlier, later, heq, -, -⟩ := hprefers
      have hmem : c ∈ candidates := by simp [heq]
      exact ⟨fun h => (by cases h), fun h => absurd htakes (h c hmem)⟩
    · intro s' heq
      cases heq
  · have hrefused : ∃ problem, chooseOverload name candidates args span s =
        (none, { s with issues := s.issues.push ⟨problem, span⟩ }) := by
      unfold chooseOverload
      rw [bind_eq_of_run (show image s = (some s.image, s) from rfl), hwhy]
      cases why
      · exact ⟨_, rfl⟩
      · exact ⟨_, rfl⟩
    obtain ⟨problem, hrefused⟩ := hrefused
    rw [hrefused]
    refine ⟨?_, ⟨fun _ => hnone, fun _ => rfl⟩, ?_⟩
    · intro c s' heq
      cases heq
    · intro s' heq
      cases heq
      exact ⟨problem, rfl⟩

/-- The larger of an integer and a double: two of the three methods are out, and the integer is widened. -/
theorem chooseOverload_optimal_mixed :
    let s := BindState.start Builtin.image .empty Builtin.store
    let maxima := Builtin.math.candidates ["System", "Math"] "Max"
    let args := [Arg.mk (.const (.int 1)) .int ⟨1, 1, 1, 1⟩,
      Arg.mk (.const (.double 0.5)) .double ⟨1, 4, 1, 6⟩]
    ∃ m, chooseOverload "Max" maxima args ⟨1, 1, 1, 7⟩ s =
        (some (.member ["System", "Math"] 5, m), s) ∧
      s.image.Prefers maxima [.int, .double] (.member ["System", "Math"] 5, m) ∧
      convertArgs m args s = (some [.widen (.const (.int 1)), .const (.double 0.5)], s) := by
  intro s maxima args
  have hrun : chooseOverload "Max" maxima args ⟨1, 1, 1, 7⟩ s =
      (some (.member ["System", "Math"] 5, Builtin.native "System.Math" "Max"
        [("a", .double), ("b", .double)] .double .maxDouble), s) := by
    rfl
  obtain ⟨-, hprefers, -, hconverted⟩ :=
    (chooseOverload_optimal s "Max" maxima args ⟨1, 1, 1, 7⟩).1 _ _ hrun
  exact ⟨_, hrun, hprefers, hconverted⟩

end Bind

end Chunkwise
