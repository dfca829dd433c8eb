import Chunkwise.Proofs.Binder.Expr
import Chunkwise.Proofs.Faithful.Member

namespace Chunkwise

open Attempt

namespace Bind

variable {J : TypeTable → Prop} {H : Prop}

theorem demand_sure {e : Expr} {r : Resolved} (h : H → Means e r) (span : Span) :
    Sure J H (demand span r) fun v => Shows e v.expr := by
  unfold demand
  split
  · exact Sure.pure h
  · exact Sure.pure fun hs => .load (h hs)
  · exact Sure.refuse _ _
  · exact Sure.refuse _ _
  · exact Sure.refuse _ _

theorem demandValue_sure {e : Expr} {r : Resolved} (h : H → Means e r) (span : Span) :
    Sure J H (demandValue span r) fun v => Shows e v.expr := by
  unfold demandValue
  refine (demand_sure h span).bind fun v => ?_
  split
  · exact Sure.refuse _ _
  · exact Sure.pure fun hs => hs.2

theorem coerce_keeps (b : BoundExpr) (source target : Ty) (span : Span) :
    Sure J H (coerce b source target span) fun b' => ∀ e, Shows e b → Shows e b' := by
  unfold coerce
  split
  · exact Sure.pure fun _ _ he => he
  · split
    · exact Sure.pure fun _ _ he => he.widened
    · refine image_sure.bind fun im => ?_
      split
      · exact Sure.pure fun _ _ he => he
      · exact Sure.refuse _ _

theorem coerce_sure {e : Expr} {b : BoundExpr} (h : H → Shows e b) (source target : Ty)
    (span : Span) : Sure J H (coerce b source target span) (Shows e) :=
  (coerce_keeps b source target span).imp fun _ hs hb => hb e (h hs)

theorem demandType_sure {e : Expr} {r : Resolved} (h : H → Means e r) (target : Ty) (span : Span) :
    Sure J H (demandType target span r) (Shows e) :=
  (demandValue_sure h span).bind fun _ => coerce_sure (fun hs => hs.2) _ _ _

theorem demandPlace_sure {e : Expr} {r : Resolved} (h : H → Means e r) (span : Span) :
    Sure J H (demandPlace span r) fun x => Locates e x.1 := by
  unfold demandPlace
  split
  · split
    · exact Sure.refuse _ _
    · exact Sure.pure h
  · exact Sure.refuse _ _

theorem stepped_sure {e : Expr} {p : Place} (h : H → Locates e p) (span : Span) (op : StepOp)
    (leading : Bool) (t : Ty) :
    Sure J H (stepped span op leading p t) fun v => Shows (.step span op leading e) v.expr := by
  unfold stepped
  split
  · exact Sure.pure fun hs => .step (h hs) op leading _
  · exact Sure.refuse _ _

theorem unary_sure {e : Expr} {v : Typed} (h : H → Shows e v.expr) (span : Span) (op : UnaryOp) :
    Sure J H (unary span op v) fun v => Shows (.unary span op e) v.expr := by
  unfold unary
  split
  · split
    · exact Sure.pure fun hs => .neg (h hs) _
    · exact Sure.refuse _ _
  · split
    · exact Sure.pure fun hs => .plus (h hs)
    · exact Sure.refuse _ _
  · split
    · exact Sure.pure fun hs => .not (h hs)
    · exact Sure.refuse _ _

section Operands

variable {el er : Expr} {l r : Typed}

theorem widened_sure (hl : H → Shows el l.expr) (hr : H → Shows er r.expr) (ls rs : Span) :
    Sure J H (widened l r ls rs) fun x => Shows el x.1 ∧ Shows er x.2 := by
  unfold widened
  refine (coerce_sure hl _ _ _).bind fun bl => ?_
  refine (coerce_sure (fun hs => hr hs.1) _ _ _).bind fun br => ?_
  exact Sure.pure fun hs => ⟨hs.1.2, hs.2⟩

theorem coalesced_sure (hl : H → Shows el l.expr) (hr : H → Shows er r.expr) (span ls rs : Span) :
    Sure J H (coalesced span l r ls rs) fun v => Shows (.binary span .coalesce el er) v.expr := by
  unfold coalesced
  refine image_sure.bind fun im => ?_
  split
  · refine (coerce_sure (fun hs => hl hs.1) _ _ _).bind fun bl => ?_
    refine (coerce_sure (fun hs => hr hs.1.1) _ _ _).bind fun br => ?_
    exact Sure.pure fun hs => .coalesce hs.1.2 hs.2
  · exact Sure.refuse _ _

theorem compared_sure (hl : H → Shows el l.expr) (hr : H → Shows er r.expr) {op : BinaryOp}
    {how : ValueOp} (hop : Performs op how) (span ls rs : Span) :
    Sure J H (compared span op how l r ls rs) fun v => Shows (.binary span op el er) v.expr := by
  unfold compared
  split
  · refine (widened_sure hl hr ls rs).bind fun x => Sure.pure fun hs => ?_
    exact .binary hop hs.2.1 hs.2.2
  · refine image_sure.bind fun im => ?_
    split
    · exact Sure.pure fun hs => .binary hop (hl hs.1) (hr hs.1)
    · exact Sure.refuse _ _

theorem ordered_sure (hl : H → Shows el l.expr) (hr : H → Shows er r.expr) {op : BinaryOp}
    {how : CompareOp} (hop : ∀ kind, Performs op (.compare how kind)) (span ls rs : Span) :
    Sure J H (ordered span op how l r ls rs) fun v => Shows (.binary span op el er) v.expr := by
  unfold ordered
  split
  · refine (widened_sure hl hr ls rs).bind fun x => Sure.pure fun hs => ?_
    exact .binary (hop _) hs.2.1 hs.2.2
  · exact Sure.refuse _ _

theorem calculated_sure (hl : H → Shows el l.expr) (hr : H → Shows er r.expr) (op : ArithOp)
    (span ls rs : Span) : Sure J H (calculated span op l r ls rs) fun v =>
      Shows (.binary span op.toBinary el er) v.expr := by
  unfold calculated
  split
  · next hadd =>
    obtain ⟨rfl, -⟩ := hadd
    exact Sure.pure fun hs => .binary .concat (hl hs) (hr hs)
  · split
    · refine (widened_sure hl hr ls rs).bind fun x => Sure.pure fun hs => ?_
      exact .binary (.arith op _) hs.2.1 hs.2.2
    · exact Sure.refuse _ _

theorem strict_sure (hl : H → Shows el l.expr) (hr : H → Shows er r.expr) {op : BinaryOp}
    (hop : ¬(op = .and ∨ op = .or)) (span ls rs : Span) :
    Sure J H (strict span op l r ls rs) fun v => Shows (.binary span op el er) v.expr := by
  cases op with
  | coalesce => exact coalesced_sure hl hr _ _ _
  | eq => exact compared_sure hl hr .equal _ _ _
  | ne => exact compared_sure hl hr .notEqual _ _ _
  | lt => exact ordered_sure hl hr .lt _ _ _
  | le => exact ordered_sure hl hr .le _ _ _
  | gt => exact ordered_sure hl hr .gt _ _ _
  | ge => exact ordered_sure hl hr .ge _ _ _
  | add => exact calculated_sure hl hr .add _ _ _
  | sub => exact calculated_sure hl hr .sub _ _ _
  | mul => exact calculated_sure hl hr .mul _ _ _
  | div => exact calculated_sure hl hr .div _ _ _
  | rem => exact calculated_sure hl hr .rem _ _ _
  | or | and => simp at hop

theorem conditional_sure {et : Expr} {test : BoundExpr} (ht : H → Shows et test)
    (hl : H → Shows el l.expr) (hr : H → Shows er r.expr) (span ls rs : Span) :
    Sure J H (conditional span test l r ls rs) fun v => Shows (.cond span et el er) v.expr := by
  unfold conditional
  refine image_sure.bind fun im => ?_
  split
  · refine (coerce_sure (fun hs => hl hs.1) _ _ _).bind fun bl => ?_
    refine (coerce_sure (fun hs => hr hs.1.1) _ _ _).bind fun br => ?_
    exact Sure.pure fun hs => .cond (ht hs.1.1.1) hs.1.2 hs.2
  · exact Sure.refuse _ _

end Operands

theorem compound_sure {target value : Expr} {p : Place} {v : Typed} (hp : H → Locates target p)
    (h : H → Shows value v.expr) (span : Span) (op : ArithOp) (t : Ty) (vs : Span) :
    Sure J H (compound span op p t v vs) fun v =>
      Shows (.assign span (some op) target value) v.expr := by
  unfold compound
  split
  · next hadd =>
    obtain ⟨rfl, -⟩ := hadd
    exact Sure.pure fun hs => .compound .concat (hp hs) (h hs)
  · split
    · refine (coerce_sure h _ _ _).bind fun b => Sure.pure fun hs => ?_
      exact .compound (.arith op _) (hp hs.1) hs.2
    · exact Sure.refuse _ _

theorem chooseOverload_sure {α : Type} (name : String) (candidates : List (α × Method))
    (args : List Arg) (span : Span) : Sure J H (chooseOverload name candidates args span) fun x =>
      x ∈ candidates ∧ x.2.params.length = args.length := by
  unfold chooseOverload
  simp only
  refine image_sure.bind fun im => ?_
  split
  · next hx => exact Sure.pure fun _ => by simpa using selectOverload_mem hx
  · exact Sure.refuse _ _
  · exact Sure.refuse _ _

/-- Each argument is a counterpart, whatever the parameter it is paired with. -/
theorem shows_of_zip {es : List Expr} {args : List Arg} {ts : List Ty} {bs : List BoundExpr}
    (hargs : List.Forall₂ (fun e a => Shows e a.expr) es args) (hlen : ts.length = args.length)
    (h : List.Forall₂ (fun (p : Ty × Arg) b => ∀ e, Shows e p.2.expr → Shows e b) (ts.zip args) bs) :
    List.Forall₂ Shows es bs := by
  induction hargs generalizing ts bs with
  | nil =>
    rw [List.zip_nil_right] at h
    cases h
    exact .nil
  | cons he _ ih =>
    cases ts with
    | nil => cases hlen
    | cons t ts =>
      cases h with
      | cons hb hbs => exact .cons (hb _ he) (ih (by simpa using hlen) hbs)

theorem convertArgs_sure {es : List Expr} {m : Method} {args : List Arg}
    (hargs : H → List.Forall₂ (fun e a => Shows e a.expr) es args)
    (hlen : H → m.params.length = args.length) :
    Sure J H (convertArgs m args) (List.Forall₂ Shows es) := by
  unfold convertArgs
  have heach : ∀ x ∈ m.paramTypes.zip args, Sure J H (coerce x.2.expr x.2.type x.1 x.2.span)
      fun b => ∀ e, Shows e x.2.expr → Shows e b := fun x _ => coerce_keeps _ _ _ _
  refine (Sure.forAll heach).bind fun out => Sure.ofOption fun hs => ?_
  obtain ⟨bs, rfl, hbs⟩ := hs.2
  exact ⟨bs, allSome_map_some bs, shows_of_zip (hargs hs.1)
    (by simpa [Method.paramTypes] using hlen hs.1) hbs⟩

theorem callText_sure {callee : Expr} {receiver : Option BoundExpr} {args : List Arg}
    {es : List Expr} (h : H → Owns callee receiver ∧ ∃ b, receiver = some b)
    (hargs : H → List.Forall₂ (fun e a => Shows e a.expr) es args) (span : Span) :
    Sure J H (callText receiver args span) fun v => Shows (.call span callee es) v.expr := by
  unfold callText
  split
  · next hempty =>
    refine Sure.bind (Q := fun b => receiver = some b) (Sure.ofOption fun hs => ?_) fun b => ?_
    · obtain ⟨-, b, rfl⟩ := h hs
      exact ⟨b, rfl, rfl⟩
    · refine Sure.pure fun hs => ?_
      obtain ⟨hs, rfl⟩ := hs
      have hnone := hargs hs
      rw [List.isEmpty_iff.mp hempty, List.forall₂_nil_right_iff] at hnone
      subst hnone
      exact .toText (h hs).1
  · exact Sure.refuse _ _

theorem call_sure {callee : Expr} {g : MethodGroup} {args : List Arg} {es : List Expr}
    (h : H → Selects callee g) (hargs : H → List.Forall₂ (fun e a => Shows e a.expr) es args)
    (span : Span) :
    Sure J H (call g args span) fun v => Shows (.call span callee es) v.expr := by
  unfold call
  split
  · next htext =>
    exact callText_sure (fun hs => ⟨(h hs).owns, (h hs).receiver (by simp [htext])⟩) hargs span
  · next htext =>
    refine (chooseOverload_sure _ _ _ _).bind fun x => ?_
    obtain ⟨ref, m⟩ := x
    refine (convertArgs_sure (fun hs => hargs hs.1) fun hs => hs.2.2).bind fun bs => ?_
    split
    · next hvirtual =>
      refine Sure.bind (Q := fun b => g.receiver = some b) (Sure.ofOption fun hs => ?_) fun b => ?_
      · obtain ⟨b, hb⟩ := (h hs.1.1).receiver (by simp [hvirtual])
        exact ⟨b, hb, hb⟩
      · refine Sure.pure fun hs => ?_
        obtain ⟨⟨⟨hs, -⟩, hbs⟩, hb⟩ := hs
        exact .callVirtual (hb ▸ (h hs).owns) hbs ref
    · next hvirtual =>
      have hdirect : g.dispatch = .direct := by
        cases hd : g.dispatch
        · rfl
        · exact absurd hd hvirtual
        · exact absurd hd htext
      split
      · next hstatic =>
        exact Sure.pure fun hs =>
          .callStatic ((h hs.1.1).statics hdirect _ hs.1.2.1 hstatic) hs.2 ref
      · split
        · next b hb => exact Sure.pure fun hs => .callDirect (hb ▸ (h hs.1.1).owns) hs.2 ref
        · exact Sure.refuse _ _

theorem instantiable_sure (ref : TypeRef) (span : Span) :
    Sure J H (instantiable ref span) fun _ => True := by
  unfold instantiable
  refine body_sure.bind fun b => (resolveValueType_sure _ ref).bind fun t => ?_
  split
  · refine (typeDef_sure _).bind fun d => ?_
    split
    · exact Sure.refuse _ _
    · split
      · exact Sure.refuse _ _
      · split
        · exact Sure.refuse _ _
        · exact Sure.pure fun _ => trivial
  · exact Sure.refuse _ _

theorem construct_sure {args : List Arg} {es : List Expr}
    (hargs : H → List.Forall₂ (fun e a => Shows e a.expr) es args) (type : TypeRef) (path : Path)
    (d : TypeDef) (span : Span) :
    Sure J H (construct path d args span) fun v => Shows (.new span type es) v.expr := by
  unfold construct
  split
  · split
    · next hempty =>
      refine Sure.pure fun hs => ?_
      have hnone := hargs hs
      rw [List.isEmpty_iff.mp hempty, List.forall₂_nil_right_iff] at hnone
      subst hnone
      exact .new .nil path none
    · exact Sure.refuse _ _
  · simp only
    refine (chooseOverload_sure _ _ _ _).bind fun x => ?_
    obtain ⟨index, m⟩ := x
    refine (convertArgs_sure (fun hs => hargs hs.1) fun hs => hs.2.2).bind fun bs => ?_
    exact Sure.pure fun hs => .new hs.2 path (some index)

theorem givenArgs_sure {es : List Expr} {as? : List (Option Arg)}
    (h : H → ∃ as, as? = as.map some ∧ List.Forall₂ (fun e a => Shows e a.expr) es as) :
    Sure J H (Attempt.ofOption (allSome as?)) (List.Forall₂ (fun e a => Shows e a.expr) es) := by
  refine Sure.ofOption fun hs => ?_
  obtain ⟨as, rfl, has⟩ := h hs
  exact ⟨as, allSome_map_some as, has⟩

mutual

theorem resolve_sure : ∀ (e : Expr) {H : Prop}, Sure J H (resolve e) (Means e)
  | .name span id, _ => by
    unfold resolve
    exact resolveName_sure ⟨id, span⟩
  | .member span target id, _ => by
    unfold resolve
    exact (resolve_sure target).bind fun r => memberOf_sure (fun hs => hs.2) span id
  | .paren _ inner, _ => by
    unfold resolve
    exact (resolve_sure inner).mono id fun _ h => h.paren
  | .int _ n, _ => by
    unfold resolve
    exact Sure.pure fun _ => Shows.int n
  | .double _ x, _ => by
    unfold resolve
    exact Sure.pure fun _ => Shows.double x
  | .str _ s, _ => by
    unfold resolve
    exact Sure.pure fun _ => Shows.str s
  | .bool _ b, _ => by
    unfold resolve
    exact Sure.pure fun _ => Shows.bool b
  | .null _, _ => by
    unfold resolve
    exact Sure.pure fun _ => Shows.null
  | .thisRef span, _ => by
    unfold resolve
    refine body_sure.bind fun b => ?_
    split
    · exact Sure.pure fun _ => Shows.thisRef
    · exact Sure.refuse _ _
  | .call span callee args, _ => by
    unfold resolve
    refine (resolve_sure callee).bind fun r => ?_
    split
    · refine (resolveArgs_sure args).bind fun as? => (givenArgs_sure fun hs => hs.2).bind fun as => ?_
      refine (call_sure (fun hs => hs.1.1.2) (fun hs => hs.2) span).bind fun v => ?_
      exact Sure.pure fun hs => hs.2
    · exact Sure.refuse _ _
  | .new span type args, _ => by
    unfold resolve
    refine (instantiable_sure type span).bind fun x => ?_
    refine (resolveArgs_sure args).bind fun as? => (givenArgs_sure fun hs => hs.2).bind fun as => ?_
    refine (construct_sure (fun hs => hs.2) type x.1 x.2 span).bind fun v => ?_
    exact Sure.pure fun hs => hs.2
  | .unary span op operand, _ => by
    by_cases hneg : ∃ s n, op = .neg ∧ operand = .int s n
    · obtain ⟨s, n, rfl, rfl⟩ := hneg
      rw [resolve]
      exact Sure.pure fun _ => Shows.negated n
    · rw [resolve]
      · refine (resolve_sure operand).bind fun r => ?_
        refine (demandValue_sure (fun hs => hs.2) _).bind fun v => ?_
        exact (unary_sure (fun hs => hs.2) span op).bind fun v => Sure.pure fun hs => hs.2
      · exact fun s n hop hoperand => hneg ⟨s, n, hop, hoperand⟩
  | .binary span op left right, _ => by
    unfold resolve
    split
    · next hop =>
      refine ((resolve_sure left).bind fun r =>
        demandType_sure (fun hs => hs.2) .bool left.span).optional.bind fun l? => ?_
      refine ((resolve_sure right).bind fun r =>
        demandType_sure (fun hs => hs.2) .bool right.span).optional.bind fun r? => ?_
      refine (Sure.ofOption fun hs => hs.1.2).bind fun l => ?_
      refine (Sure.ofOption fun hs => hs.1.2).bind fun r => Sure.pure fun hs => ?_
      rcases hop with rfl | rfl
      · exact Shows.both hs.1.2 hs.2
      · exact Shows.either hs.1.2 hs.2
    · next hop =>
      refine ((resolve_sure left).bind fun r =>
        demandValue_sure (fun hs => hs.2) left.span).optional.bind fun l? => ?_
      refine ((resolve_sure right).bind fun r =>
        demandValue_sure (fun hs => hs.2) right.span).optional.bind fun r? => ?_
      refine (Sure.ofOption fun hs => hs.1.2).bind fun l => ?_
      refine (Sure.ofOption fun hs => hs.1.2).bind fun r => ?_
      refine (strict_sure (fun hs => hs.1.2) (fun hs => hs.2) hop span _ _).bind fun v => ?_
      exact Sure.pure fun hs => hs.2
  | .assign span op target value, _ => by
    unfold resolve
    refine (resolve_sure target).bind fun r => (demandPlace_sure (fun hs => hs.2) _).bind fun x => ?_
    obtain ⟨p, t⟩ := x
    cases op with
    | none =>
      refine (resolve_sure value).bind fun r => (demandType_sure (fun hs => hs.2) t _).bind fun b => ?_
      exact Sure.pure fun hs => Shows.assign hs.1.1.2 hs.2
    | some op =>
      refine (resolve_sure value).bind fun r => (demandValue_sure (fun hs => hs.2) _).bind fun v => ?_
      refine (compound_sure (fun hs => hs.1.1.2) (fun hs => hs.2) span op t _).bind fun v => ?_
      exact Sure.pure fun hs => hs.2
  | .step span op leading target, _ => by
    unfold resolve
    refine (resolve_sure target).bind fun r => (demandPlace_sure (fun hs => hs.2) _).bind fun x => ?_
    refine (stepped_sure (fun hs => hs.2) span op leading x.2).bind fun v => ?_
    exact Sure.pure fun hs => hs.2
  | .cond span test yes no, _ => by
    unfold resolve
    refine ((resolve_sure test).bind fun r =>
      demandType_sure (fun hs => hs.2) .bool test.span).optional.bind fun c? => ?_
    refine ((resolve_sure yes).bind fun r =>
      demandValue_sure (fun hs => hs.2) yes.span).optional.bind fun l? => ?_
    refine ((resolve_sure no).bind fun r =>
      demandValue_sure (fun hs => hs.2) no.span).optional.bind fun r? => ?_
    refine (Sure.ofOption fun hs => hs.1.1.2).bind fun c => ?_
    refine (Sure.ofOption fun hs => hs.1.1.2).bind fun l => ?_
    refine (Sure.ofOption fun hs => hs.1.1.2).bind fun r => ?_
    refine (conditional_sure (fun hs => hs.1.1.2) (fun hs => hs.1.2) (fun hs => hs.2) span _ _).bind
      fun v => ?_
    exact Sure.pure fun hs => hs.2

theorem resolveArgs_sure : ∀ (es : List Expr) {H : Prop}, Sure J H (resolveArgs es) fun as? =>
    ∃ as, as? = as.map some ∧ List.Forall₂ (fun e a => Shows e a.expr) es as
  | [], _ => by
    unfold resolveArgs
    exact Sure.pure fun _ => ⟨[], rfl, .nil⟩
  | e :: es, _ => by
    unfold resolveArgs
    refine Sure.bind (Sure.optional (Q := fun a : Arg => Shows e a.expr) ?_) fun a? => ?_
    · refine (resolve_sure e).bind fun r => (demandValue_sure (fun hs => hs.2) e.span).bind fun v => ?_
      exact Sure.pure fun hs => hs.2
    · refine (resolveArgs_sure es).bind fun rest => Sure.pure fun hs => ?_
      obtain ⟨⟨-, a, rfl, ha⟩, as, rfl, has⟩ := hs
      exact ⟨a :: as, rfl, .cons ha has⟩

end

theorem expr_sure (e : Expr) : Sure J H (expr e) fun v => Shows e v.expr :=
  (resolve_sure e).bind fun _ => demand_sure (fun hs => hs.2) e.span

theorem value_sure (e : Expr) : Sure J H (value e) fun v => Shows e v.expr :=
  (resolve_sure e).bind fun _ => demandValue_sure (fun hs => hs.2) e.span

theorem converted_sure (target : Ty) (e : Expr) : Sure J H (converted target e) (Shows e) :=
  (resolve_sure e).bind fun _ => demandType_sure (fun hs => hs.2) target e.span

theorem condition_sure (e : Expr) : Sure J H (condition e) (Shows e) := converted_sure .bool e

end Bind

end Chunkwise
