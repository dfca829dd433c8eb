import Chunkwise.Proofs.Parallel.Member

namespace Chunkwise.Bind

open Attempt

theorem resolve_unary [NameLookup] {op : UnaryOp} {operand : Expr}
    (h : ∀ s n, op = .neg → operand = .int s n → False) (span : Span) :
    resolve (.unary span op operand) = (do
      let v ← demandValue operand.span (← resolve operand)
      return ofTyped (← unary span op v)) := by
  rw [resolve]
  exact h

variable {l l' : NameLookup} (a : Accord l l') {n : Nat} (span : Span)

section Denotations

variable {r r' : Resolved} (hr : r.Same a.frame a.static r')
include hr

theorem demand_parallel :
    Parallel (a.state n) (Typed.Same a.frame a.static) (demand span r) (demand (a.view span) r') := by
  unfold demand
  cases hr with
  | value t he => exact .pure ⟨rfl, he⟩
  | place t isReadonly hp => exact .pure ⟨rfl, .load hp⟩
  | type path => exact refuse_parallel (a.steady n) _ _
  | space path => exact refuse_parallel (a.steady n) _ _
  | methods hg =>
    dsimp only
    rw [hg.name]
    exact refuse_parallel (a.steady n) _ _

theorem demandValue_parallel :
    Parallel (a.state n) (Typed.Same a.frame a.static) (demandValue span r)
      (demandValue (a.view span) r') := by
  unfold demandValue
  refine (demand_parallel a span hr).bind fun v v' hv => ?_
  exact .ite (by rw [hv.type]) (refuse_parallel (a.steady n) _ _) (.pure hv)

omit hr in
theorem coerce_parallel {e e' : BoundExpr} (he : e.Same a.frame a.static e') (source target : Ty) :
    Parallel (a.state n) (BoundExpr.Same a.frame a.static) (coerce e source target span)
      (coerce e' source target (a.view span)) := by
  unfold coerce
  refine .ite Iff.rfl (.pure he) (.ite Iff.rfl (.pure (.widen he)) ?_)
  refine (image_resembles a).bind fun im im' him => ?_
  exact .ite (by rw [him.isAssignable]) (.pure he) (refuse_parallel (a.steady n) _ _)

theorem demandType_parallel (target : Ty) :
    Parallel (a.state n) (BoundExpr.Same a.frame a.static) (demandType target span r)
      (demandType target (a.view span) r') := by
  unfold demandType
  refine (demandValue_parallel a span hr).bind fun v v' hv => ?_
  rw [hv.type]
  exact coerce_parallel a span hv.expr _ _

theorem demandPlace_parallel :
    Parallel (a.state n) (fun x x' => x.1.Same a.frame a.static x'.1 ∧ x.2 = x'.2) (demandPlace span r)
      (demandPlace (a.view span) r') := by
  unfold demandPlace
  cases hr with
  | place t isReadonly hp => exact .ite Iff.rfl (refuse_parallel (a.steady n) _ _) (.pure ⟨hp, rfl⟩)
  | value t he => exact refuse_parallel (a.steady n) _ _
  | type path => exact refuse_parallel (a.steady n) _ _
  | space path => exact refuse_parallel (a.steady n) _ _
  | methods hg => exact refuse_parallel (a.steady n) _ _

end Denotations

theorem stepped_parallel (op : StepOp) (leading : Bool) {p p' : Place}
    (hp : p.Same a.frame a.static p') (t : Ty) :
    Parallel (a.state n) (Typed.Same a.frame a.static) (stepped span op leading p t)
      (stepped (a.view span) op leading p' t) := by
  unfold stepped
  exact .ite Iff.rfl (.pure ⟨rfl, .step hp _ _ _⟩) (refuse_parallel (a.steady n) _ _)

theorem unary_parallel (op : UnaryOp) {v v' : Typed} (hv : v.Same a.frame a.static v') :
    Parallel (a.state n) (Typed.Same a.frame a.static) (unary span op v)
      (unary (a.view span) op v') := by
  have hrefuse := fun p => refuse_parallel (A := Typed.Same a.frame a.static) (a.steady n) p span
  unfold unary
  rw [hv.type]
  cases op with
  | neg => exact .ite Iff.rfl (.pure ⟨rfl, .neg _ hv.expr⟩) (hrefuse _)
  | plus => exact .ite Iff.rfl (.pure hv) (hrefuse _)
  | not => exact .ite Iff.rfl (.pure ⟨rfl, .not hv.expr⟩) (hrefuse _)

section Binary

variable {x x' y y' : Typed} (hx : x.Same a.frame a.static x') (hy : y.Same a.frame a.static y')
  (xs ys : Span)
include hx hy

theorem widened_parallel :
    Parallel (a.state n)
      (fun z z' => z.1.Same a.frame a.static z'.1 ∧ z.2.Same a.frame a.static z'.2)
      (widened x y xs ys) (widened x' y' (a.view xs) (a.view ys)) := by
  unfold widened
  rw [hx.type, hy.type]
  refine (coerce_parallel a xs hx.expr _ _).bind fun e e' he => ?_
  exact (coerce_parallel a ys hy.expr _ _).bind fun r r' hr => .pure ⟨he, hr⟩

theorem coalesced_parallel :
    Parallel (a.state n) (Typed.Same a.frame a.static) (coalesced span x y xs ys)
      (coalesced (a.view span) x' y' (a.view xs) (a.view ys)) := by
  unfold coalesced
  refine (image_resembles a).bind fun im im' him => ?_
  rw [him.isNullable, him.commonType?, hx.type, hy.type]
  rcases (if im'.isNullable x'.type then commonType? im' x'.type y'.type else none) with _ | t
  · exact refuse_parallel (a.steady n) _ _
  · refine (coerce_parallel a xs hx.expr _ _).bind fun e e' he => ?_
    exact (coerce_parallel a ys hy.expr _ _).bind fun r r' hr => .pure ⟨rfl, .coalesce he hr⟩

theorem compared_parallel (op : BinaryOp) (how : ValueOp) :
    Parallel (a.state n) (Typed.Same a.frame a.static) (compared span op how x y xs ys)
      (compared (a.view span) op how x' y' (a.view xs) (a.view ys)) := by
  unfold compared
  rw [hx.type, hy.type]
  refine .ite Iff.rfl ?_ ?_
  · refine (widened_parallel a hx hy xs ys).bind fun z z' hz => ?_
    exact .pure ⟨rfl, .binary how hz.1 hz.2⟩
  · refine (image_resembles a).bind fun im im' him => ?_
    refine .ite (by rw [him.isComparable]) ?_ (refuse_parallel (a.steady n) _ _)
    exact .pure ⟨rfl, .binary how hx.expr hy.expr⟩

theorem ordered_parallel (op : BinaryOp) (how : CompareOp) :
    Parallel (a.state n) (Typed.Same a.frame a.static) (ordered span op how x y xs ys)
      (ordered (a.view span) op how x' y' (a.view xs) (a.view ys)) := by
  unfold ordered
  rw [hx.type, hy.type]
  refine .ite Iff.rfl ?_ (refuse_parallel (a.steady n) _ _)
  refine (widened_parallel a hx hy xs ys).bind fun z z' hz => ?_
  exact .pure ⟨rfl, .binary _ hz.1 hz.2⟩

theorem calculated_parallel (op : ArithOp) :
    Parallel (a.state n) (Typed.Same a.frame a.static) (calculated span op x y xs ys)
      (calculated (a.view span) op x' y' (a.view xs) (a.view ys)) := by
  unfold calculated
  rw [hx.type, hy.type]
  refine .ite Iff.rfl (.pure ⟨rfl, .binary _ hx.expr hy.expr⟩) (.ite Iff.rfl ?_ ?_)
  · refine (widened_parallel a hx hy xs ys).bind fun z z' hz => ?_
    exact .pure ⟨rfl, .binary _ hz.1 hz.2⟩
  · exact refuse_parallel (a.steady n) _ _

theorem strict_parallel (op : BinaryOp) :
    Parallel (a.state n) (Typed.Same a.frame a.static) (strict span op x y xs ys)
      (strict (a.view span) op x' y' (a.view xs) (a.view ys)) := by
  cases op with
  | coalesce => exact coalesced_parallel a span hx hy xs ys
  | eq | ne => exact compared_parallel a span hx hy xs ys _ _
  | lt | le | gt | ge => exact ordered_parallel a span hx hy xs ys _ _
  | add | sub | mul | div | rem => exact calculated_parallel a span hx hy xs ys _
  | or | and => exact .fail

theorem conditional_parallel {test test' : BoundExpr} (htest : test.Same a.frame a.static test') :
    Parallel (a.state n) (Typed.Same a.frame a.static) (conditional span test x y xs ys)
      (conditional (a.view span) test' x' y' (a.view xs) (a.view ys)) := by
  unfold conditional
  refine (image_resembles a).bind fun im im' him => ?_
  rw [him.commonType?, hx.type, hy.type]
  rcases commonType? im' x'.type y'.type with _ | t
  · exact refuse_parallel (a.steady n) _ _
  · refine (coerce_parallel a xs hx.expr _ _).bind fun e e' he => ?_
    exact (coerce_parallel a ys hy.expr _ _).bind fun r r' hr => .pure ⟨rfl, .cond htest he hr⟩

end Binary

theorem compound_parallel (op : ArithOp) {p p' : Place} (hp : p.Same a.frame a.static p') (t : Ty)
    {v v' : Typed} (hv : v.Same a.frame a.static v') (vs : Span) :
    Parallel (a.state n) (Typed.Same a.frame a.static) (compound span op p t v vs)
      (compound (a.view span) op p' t v' (a.view vs)) := by
  unfold compound
  rw [hv.type]
  refine .ite Iff.rfl (.pure ⟨rfl, .compound hp _ hv.expr⟩) (.ite Iff.rfl ?_ ?_)
  · refine (coerce_parallel a vs hv.expr _ _).bind fun e e' he => ?_
    exact .pure ⟨rfl, .compound hp _ he⟩
  · exact refuse_parallel (a.steady n) _ _

section Calls

variable {args args' : List Arg} (hargs : List.Forall₂ (Arg.Same a.frame a.static a.view) args args')
include hargs

theorem map_type_of_same : args.map Arg.type = args'.map Arg.type := by
  rw [← List.forall₂_eq_eq_eq, List.forall₂_map_left_iff, List.forall₂_map_right_iff]
  exact hargs.imp fun _ _ ha => ha.type

theorem chooseOverload_parallel {α β : Type} {R : α × Method → β × Method → Prop}
    (hR : ∀ x y, R x y → x.2.params = y.2.params) {cs : List (α × Method)} {cs' : List (β × Method)}
    (hcs : List.Forall₂ R cs cs') (name : String) :
    Parallel (a.state n) R (chooseOverload name cs args span)
      (chooseOverload name cs' args' (a.view span)) := by
  unfold chooseOverload
  rw [map_type_of_same a hargs, hargs.length_eq]
  refine (image_resembles a).bind fun im im' him => ?_
  rcases him.selectOverload hR hcs (args'.map Arg.type) with ⟨c, c', hc, hc', hrel⟩ | ⟨e, he, he'⟩
  · rw [hc, hc']
    exact .pure hrel
  · rw [he, he']
    cases e with
    | arity => exact refuse_parallel (a.steady n) _ _
    | types => exact refuse_parallel (a.steady n) _ _

theorem convertArgs_parallel {m m' : Method} (hm : m.Resembles m') :
    Parallel (a.state n) (List.Forall₂ (BoundExpr.Same a.frame a.static)) (convertArgs m args)
      (convertArgs m' args') := by
  have hzip : ∀ types : List Ty, List.Forall₂
      (fun p p' : Ty × Arg => p.1 = p'.1 ∧ p.2.Same a.frame a.static a.view p'.2)
      (types.zip args) (types.zip args') := by
    induction hargs with
    | nil => intro types; simp
    | cons ha _ ih =>
      intro types
      cases types with
      | nil => exact .nil
      | cons t types => exact .cons ⟨rfl, ha⟩ (ih types)
  unfold convertArgs Method.paramTypes
  rw [hm.params]
  refine (Parallel.forAll (hzip _) fun p p' hp => ?_).bind fun es es' hes =>
    .ofOption (rel_allSome hes)
  rw [hp.2.type, hp.1, hp.2.span]
  exact coerce_parallel a _ hp.2.expr _ _

theorem callText_parallel {receiver receiver' : Option BoundExpr}
    (hreceiver : Option.Rel (BoundExpr.Same a.frame a.static) receiver receiver') :
    Parallel (a.state n) (Typed.Same a.frame a.static) (callText receiver args span)
      (callText receiver' args' (a.view span)) := by
  unfold callText
  rw [hargs.length_eq]
  refine .ite (by rw [forall₂_isEmpty hargs]) ?_ (refuse_parallel (a.steady n) _ _)
  exact (Parallel.ofOption hreceiver).bind fun e e' he => .pure ⟨rfl, .toText he⟩

theorem call_parallel {g g' : MethodGroup} (hg : g.Same a.frame a.static g') :
    Parallel (a.state n) (Typed.Same a.frame a.static) (call g args span)
      (call g' args' (a.view span)) := by
  unfold call
  rw [hg.dispatch, hg.name]
  refine .ite Iff.rfl (callText_parallel a span hargs hg.receiver) ?_
  refine (chooseOverload_parallel a span hargs (fun _ _ hxy => hxy.2.params) hg.candidates _).bind ?_
  rintro ⟨ref, m⟩ ⟨ref', m'⟩ ⟨href, hm⟩
  obtain rfl : ref = ref' := href
  refine (convertArgs_parallel a hargs hm).bind fun es es' hes => ?_
  dsimp only at hm ⊢
  rw [hm.returns, hm.isStatic, hm.owner, hm.name]
  refine .ite Iff.rfl ?_ (.ite Iff.rfl (.pure ⟨rfl, .callStatic ref hes⟩) ?_)
  · refine (Parallel.ofOption hg.receiver).bind fun e e' he => ?_
    exact .pure ⟨rfl, .callVirtual he ref hes⟩
  · have hreceiver := hg.receiver
    generalize g.receiver = e? at hreceiver ⊢
    generalize g'.receiver = e'? at hreceiver ⊢
    cases hreceiver with
    | some he => exact .pure ⟨rfl, .callDirect he ref hes⟩
    | none => exact refuse_parallel (a.steady n) _ _

theorem construct_parallel (path : Path) {d d' : TypeDef} (hd : d.Resembles d') :
    Parallel (a.state n) (Typed.Same a.frame a.static) (construct path d args span)
      (construct path d' args' (a.view span)) := by
  have hcandidates : List.Forall₂ (fun x y => x.1 = y.1 ∧ x.2.Resembles y.2)
      (d.constructors.zipIdx.map fun x => (x.2, x.1))
      (d'.constructors.zipIdx.map fun x => (x.2, x.1)) := by
    rw [List.forall₂_map_left_iff, List.forall₂_map_right_iff]
    exact (forall₂_zipIdx hd.constructors 0).imp fun _ _ hxy => ⟨hxy.2, hxy.1⟩
  unfold construct
  rw [hargs.length_eq]
  refine .ite (by rw [forall₂_isEmpty hd.constructors]) (.ite (by rw [forall₂_isEmpty hargs]) ?_ ?_) ?_
  · exact .pure ⟨rfl, .new path none .nil⟩
  · exact refuse_parallel (a.steady n) _ _
  · refine (chooseOverload_parallel a span hargs (fun _ _ hxy => hxy.2.params) hcandidates _).bind ?_
    rintro ⟨i, m⟩ ⟨i', m'⟩ ⟨hi, hm⟩
    obtain rfl : i = i' := hi
    exact (convertArgs_parallel a hargs hm).bind fun es es' hes => .pure ⟨rfl, .new path (some i) hes⟩

end Calls

theorem instantiable_parallel (ref : TypeRef) :
    Parallel (a.state n) (fun x x' => x.1 = x'.1 ∧ x.2.Resembles x'.2) (@instantiable l ref span)
      (@instantiable l' (ref.relocate a.view) (a.view span)) := by
  unfold instantiable
  refine (body_parallel a).bind fun b b' hb => ?_
  rw [← hb.1.ctx]
  refine (resolveValueType_parallel (a.steady n) hb.2 ref).bind fun t _ ht => ?_
  subst ht
  have hrefuse := fun p => refuse_parallel (a.steady n) p span
    (A := fun x x' : Path × TypeDef => x.1 = x'.1 ∧ x.2.Resembles x'.2)
  cases t with
  | named path =>
    refine (typeDef_parallel a path).bind fun d d' hd => ?_
    have hd := hd.resembles
    rw [hd.hasObjects, hd.isStatic, hd.isAbstract]
    exact .ite Iff.rfl (hrefuse _) (.ite Iff.rfl (hrefuse _) (.ite Iff.rfl (hrefuse _) (.pure ⟨rfl, hd⟩)))
  | _ => exact hrefuse _

section Parts

variable {p p' q q' : Bind Resolved}
  (hp : Parallel (a.state n) (Resolved.Same a.frame a.static) p p')
  (hq : Parallel (a.state n) (Resolved.Same a.frame a.static) q q') (xs ys : Span)
include hp

theorem valueOf_parallel : Parallel (a.state n) (Typed.Same a.frame a.static)
    (do demandValue span (← p)) (do demandValue (a.view span) (← p')) :=
  hp.bind fun _ _ hr => demandValue_parallel a span hr

theorem convertedTo_parallel (target : Ty) : Parallel (a.state n) (BoundExpr.Same a.frame a.static)
    (do demandType target span (← p)) (do demandType target (a.view span) (← p')) :=
  hp.bind fun _ _ hr => demandType_parallel a span hr target

include hq

theorem logical_parallel (op : BinaryOp) :
    Parallel (a.state n) (Resolved.Same a.frame a.static)
      (do
        let l? ← Attempt.optional (do demandType .bool xs (← p))
        let r? ← Attempt.optional (do demandType .bool ys (← q))
        let l ← Attempt.ofOption l?
        let r ← Attempt.ofOption r?
        return .value (if op = .and then .both l r else .either l r) .bool)
      (do
        let l? ← Attempt.optional (do demandType .bool (a.view xs) (← p'))
        let r? ← Attempt.optional (do demandType .bool (a.view ys) (← q'))
        let l ← Attempt.ofOption l?
        let r ← Attempt.ofOption r?
        return .value (if op = .and then .both l r else .either l r) .bool) := by
  refine (convertedTo_parallel a xs hp .bool).both (convertedTo_parallel a ys hq .bool)
    fun l l' r r' hl hr => .pure (.value _ ?_)
  split
  · exact .both hl hr
  · exact .either hl hr

theorem strict_operands_parallel (op : BinaryOp) :
    Parallel (a.state n) (Resolved.Same a.frame a.static)
      (do
        let l? ← Attempt.optional (do demandValue xs (← p))
        let r? ← Attempt.optional (do demandValue ys (← q))
        let l ← Attempt.ofOption l?
        let r ← Attempt.ofOption r?
        return ofTyped (← strict span op l r xs ys))
      (do
        let l? ← Attempt.optional (do demandValue (a.view xs) (← p'))
        let r? ← Attempt.optional (do demandValue (a.view ys) (← q'))
        let l ← Attempt.ofOption l?
        let r ← Attempt.ofOption r?
        return ofTyped (← strict (a.view span) op l r (a.view xs) (a.view ys))) :=
  (valueOf_parallel a xs hp).both (valueOf_parallel a ys hq) fun _ _ _ _ hl hr =>
    (strict_parallel a span hl hr xs ys op).bind fun _ _ hx => .pure (.ofTyped hx)

end Parts

section Arguments

variable {ps ps' : Bind (List (Option Arg))}
  (hps : Parallel (a.state n) (List.Forall₂ (Option.Rel (Arg.Same a.frame a.static a.view))) ps ps')
include hps

theorem call_args_parallel {g g' : MethodGroup} (hg : g.Same a.frame a.static g') :
    Parallel (a.state n) (Resolved.Same a.frame a.static)
      (do
        let args ← Attempt.ofOption (Attempt.allSome (← ps))
        return ofTyped (← call g args span))
      (do
        let args ← Attempt.ofOption (Attempt.allSome (← ps'))
        return ofTyped (← call g' args (a.view span))) := by
  refine hps.bind fun as? as'? has => (Parallel.ofOption (rel_allSome has)).bind fun as as' has => ?_
  exact (call_parallel a span has hg).bind fun x x' hx => .pure (.ofTyped hx)

theorem construct_args_parallel (path : Path) {d d' : TypeDef} (hd : d.Resembles d') :
    Parallel (a.state n) (Resolved.Same a.frame a.static)
      (do
        let args ← Attempt.ofOption (Attempt.allSome (← ps))
        return ofTyped (← construct path d args span))
      (do
        let args ← Attempt.ofOption (Attempt.allSome (← ps'))
        return ofTyped (← construct path d' args (a.view span))) := by
  refine hps.bind fun as? as'? has => (Parallel.ofOption (rel_allSome has)).bind fun as as' has => ?_
  exact (construct_parallel a span has path hd).bind fun x x' hx => .pure (.ofTyped hx)

end Arguments

/-- A minus sign before a number is part of the number on both sides, or on neither. -/
theorem resolve_unary_parallel (op : UnaryOp) (operand : Expr)
    (hoperand : Parallel (a.state n) (Resolved.Same a.frame a.static) (@resolve l operand)
      (@resolve l' (operand.relocate a.view))) :
    Parallel (a.state n) (Resolved.Same a.frame a.static) (@resolve l (.unary span op operand))
      (@resolve l' ((Expr.unary span op operand).relocate a.view)) := by
  by_cases hneg : ∃ s k, op = .neg ∧ operand = .int s k
  · obtain ⟨s, k, rfl, rfl⟩ := hneg
    unfold Expr.relocate Expr.relocate resolve
    exact .pure (.value _ (.const _))
  · have hother : ∀ s k, op = .neg → operand = .int s k → False :=
      fun s k hop hoperand => hneg ⟨s, k, hop, hoperand⟩
    have hother' : ∀ s k, op = .neg → operand.relocate a.view = .int s k → False := by
      intro s k hop hoperand
      cases operand with
      | int s' k' => exact hother s' k' hop rfl
      | _ => simp only [Expr.relocate, reduceCtorEq] at hoperand
    rw [Expr.relocate, @resolve_unary l _ _ hother, @resolve_unary l' _ _ hother', Expr.relocate_span]
    refine hoperand.bind fun r r' hr => (demandValue_parallel a _ hr).bind fun x x' hx => ?_
    exact (unary_parallel a span op hx).bind fun x x' hx => .pure (.ofTyped hx)

mutual

/-- What an expression denotes is the same on both sides, up to slots. -/
theorem resolve_parallel : ∀ e : Expr,
    Parallel (a.state n) (Resolved.Same a.frame a.static) (@resolve l e)
      (@resolve l' (e.relocate a.view))
  | .name span id => by
    unfold Expr.relocate resolve
    exact resolveName_parallel a ⟨id, span⟩
  | .member _ target id => by
    unfold Expr.relocate resolve
    exact (resolve_parallel target).bind fun r r' hr => memberOf_parallel a hr id
  | .paren _ inner => by
    unfold Expr.relocate resolve
    exact resolve_parallel inner
  | .int .. | .double .. | .str .. | .bool .. | .null .. => by
    unfold Expr.relocate resolve
    exact .pure (.value _ (.const _))
  | .thisRef span => by
    unfold Expr.relocate resolve
    refine (body_parallel a).bind fun b b' hb => ?_
    rw [hb.1.thisType]
    cases b'.thisType with
    | some path => exact .pure (.value _ .thisRef)
    | none => exact refuse_parallel (a.steady n) _ _
  | .call span callee args => by
    unfold Expr.relocate resolve
    rw [Expr.relocate_span]
    refine (resolve_parallel callee).bind fun r r' hr => ?_
    cases hr with
    | methods hg => exact call_args_parallel a span (resolveArgs_parallel args) hg
    | value t he => exact refuse_parallel (a.steady n) _ _
    | place t isReadonly hp => exact refuse_parallel (a.steady n) _ _
    | type path => exact refuse_parallel (a.steady n) _ _
    | space path => exact refuse_parallel (a.steady n) _ _
  | .new span type args => by
    unfold Expr.relocate resolve
    refine (instantiable_parallel a span type).bind ?_
    rintro ⟨path, d⟩ ⟨path', d'⟩ ⟨hpath, hd⟩
    obtain rfl : path = path' := hpath
    exact construct_args_parallel a span (resolveArgs_parallel args) path hd
  | .unary span op operand => resolve_unary_parallel a span op operand (resolve_parallel operand)
  | .binary span op left right => by
    unfold Expr.relocate resolve
    rw [Expr.relocate_span, Expr.relocate_span]
    exact .ite Iff.rfl (logical_parallel a (resolve_parallel left) (resolve_parallel right) _ _ op)
      (strict_operands_parallel a span (resolve_parallel left) (resolve_parallel right) _ _ op)
  | .assign span op target value => by
    unfold Expr.relocate resolve
    rw [Expr.relocate_span, Expr.relocate_span]
    refine (resolve_parallel target).bind fun r r' hr => ?_
    refine (demandPlace_parallel a target.span hr).bind ?_
    rintro ⟨p, t⟩ ⟨p', t'⟩ ⟨hp, ht⟩
    obtain rfl : t = t' := ht
    cases op with
    | none =>
      refine (resolve_parallel value).bind fun r r' hr => ?_
      exact (demandType_parallel a _ hr t).bind fun e e' he => .pure (.value _ (.assign hp he))
    | some op =>
      refine (resolve_parallel value).bind fun r r' hr => ?_
      refine (demandValue_parallel a _ hr).bind fun y y' hy => ?_
      exact (compound_parallel a span op hp t hy value.span).bind fun y y' hy => .pure (.ofTyped hy)
  | .step span op leading target => by
    unfold Expr.relocate resolve
    rw [Expr.relocate_span]
    refine (resolve_parallel target).bind fun r r' hr => ?_
    refine (demandPlace_parallel a target.span hr).bind ?_
    rintro ⟨p, t⟩ ⟨p', t'⟩ ⟨hp, ht⟩
    obtain rfl : t = t' := ht
    exact (stepped_parallel a span op leading hp t).bind fun y y' hy => .pure (.ofTyped hy)
  | .cond span test yes no => by
    unfold Expr.relocate resolve
    simp only [Expr.relocate_span]
    refine (convertedTo_parallel a _ (resolve_parallel test) .bool).optional.bind fun c? c'? hc => ?_
    refine (valueOf_parallel a _ (resolve_parallel yes)).optional.bind fun x? x'? hx => ?_
    refine (valueOf_parallel a _ (resolve_parallel no)).optional.bind fun y? y'? hy => ?_
    refine (Parallel.ofOption hc).bind fun c c' hc => ?_
    refine (Parallel.ofOption hx).bind fun x x' hx => (Parallel.ofOption hy).bind fun y y' hy => ?_
    exact (conditional_parallel a span hx hy _ _ hc).bind fun z z' hz => .pure (.ofTyped hz)

theorem resolveArgs_parallel : ∀ es : List Expr,
    Parallel (a.state n) (List.Forall₂ (Option.Rel (Arg.Same a.frame a.static a.view)))
      (@resolveArgs l es) (@resolveArgs l' (Expr.relocateAll a.view es))
  | [] => by
    unfold Expr.relocateAll resolveArgs
    exact .pure .nil
  | e :: es => by
    unfold Expr.relocateAll resolveArgs
    rw [Expr.relocate_span]
    refine Parallel.bind (A := Option.Rel (Arg.Same a.frame a.static a.view)) ?_
      fun arg? arg'? harg => (resolveArgs_parallel es).bind fun rest rest' hrest => .pure (.cons harg hrest)
    refine ((resolve_parallel e).bind fun r r' hr => ?_).optional
    exact (demandValue_parallel a e.span hr).bind fun x x' hx => .pure ⟨hx.type, hx.expr, rfl⟩

end

section Expressions

variable (e : Expr)

theorem expr_parallel : Parallel (a.state n) (Typed.Same a.frame a.static) (@expr l e)
    (@expr l' (e.relocate a.view)) := by
  unfold expr
  rw [Expr.relocate_span]
  exact (resolve_parallel a e).bind fun _ _ hr => demand_parallel a e.span hr

theorem value_parallel : Parallel (a.state n) (Typed.Same a.frame a.static) (@value l e)
    (@value l' (e.relocate a.view)) := by
  unfold value
  rw [Expr.relocate_span]
  exact valueOf_parallel a e.span (resolve_parallel a e)

theorem converted_parallel (target : Ty) :
    Parallel (a.state n) (BoundExpr.Same a.frame a.static) (@converted l target e)
      (@converted l' target (e.relocate a.view)) := by
  unfold converted
  rw [Expr.relocate_span]
  exact convertedTo_parallel a e.span (resolve_parallel a e) target

theorem condition_parallel :
    Parallel (a.state n) (BoundExpr.Same a.frame a.static) (@condition l e)
      (@condition l' (e.relocate a.view)) := converted_parallel a e .bool

end Expressions

end Chunkwise.Bind
