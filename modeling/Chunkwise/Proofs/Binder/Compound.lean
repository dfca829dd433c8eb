import Chunkwise.Binder.Expr
import Chunkwise.Machine.Eval
import Chunkwise.Proofs.Attempt

/-!
An assignment with an operator means what it abbreviates: the simple name on its left is read
before the right side is evaluated, and reading it a second time finds the same place. So whenever
`x op= e` is accepted, `x = x op e` is accepted with the same type, and from every state the two
run alike, whatever `e` does.
-/
namespace Chunkwise

open Attempt

/-- A place that is found without evaluating code: a local, a variable or a field of `this`. -/
def Place.IsDirect : Place → Prop
  | .frame _ | .static _ => True
  | .field target _ => target = .thisRef

namespace Machine

variable {env : Env} {calls : Calls} {p : Place}

theorem locate_of_isDirect (h : p.IsDirect) :
    ∃ r : RunState → Except Stop Location, locate env calls p = fun s => (r s, s) := by
  cases p with
  | frame i => exact ⟨fun _ => .ok (.frame i), by rw [locate]; rfl⟩
  | static i => exact ⟨fun _ => .ok (.static i), by rw [locate]; rfl⟩
  | field target i =>
    obtain rfl : target = .thisRef := h
    refine ⟨fun s => (receiver (s.frame.thisObject.elim .null ObjectRef.value)).map
      fun o => .field o i, funext fun s => ?_⟩
    rw [locate, eval]
    change Run.bind _ _ s = _
    cases ho : s.frame.thisObject <;> simp only [Run.bind, Bind.bind, Run.gets, Run.ofExcept, ho]
    · rfl
    · rfl

/-- At a direct place, an operation in place does what reading, operating and assigning do. -/
theorem eval_compound_of_isDirect (h : p.IsDirect) (op : ValueOp) (e : BoundExpr) :
    eval env calls (.compound p op e) =
      eval env calls (.assign p (.binary op (.load p) e)) := by
  obtain ⟨r, hr⟩ : ∃ r : RunState → Except Stop Location,
    locate env calls p = fun s => (r s, s) := locate_of_isDirect h
  funext s
  rw [eval, eval, eval, eval, hr]
  change Run.bind _ _ s = Run.bind _ _ s
  simp only [Run.bind, Bind.bind]
  cases hl : r s with
  | error stop => rfl
  | ok l =>
    simp only [load, Run.gets, hl]
    rcases he : eval env calls e s with ⟨stop | v, s'⟩
    · rfl
    · simp only [Run.ofExcept]

end Machine

def Resolved.IsDirect : Resolved → Prop
  | .place p _ _ => p.IsDirect
  | _ => True

namespace Bind

variable {s s' : BindState}

/-- What a name means is found without a change, and a place that it means is direct. -/
def FindsDirect (s : BindState) (p : Bind (Option Resolved)) : Prop :=
  Triple (· = s) p (fun r? s' => s' = s ∧ ∀ r, r? = some r → r.IsDirect) fun _ => True

namespace FindsDirect

theorem pure {r? : Option Resolved} (h : ∀ r, r? = some r → r.IsDirect) :
    FindsDirect s (Pure.pure r?) :=
  Triple.pure fun _ hs => ⟨hs, h⟩

theorem gets {α : Type} {f : BindState → α} {g : α → Bind (Option Resolved)}
    (h : ∀ a, FindsDirect s (g a)) : FindsDirect s (Attempt.gets f >>= g) :=
  Triple.bind (Q := fun _ s' => s' = s) (Triple.gets fun _ h => h) h

end FindsDirect

theorem enclosingMember_findsDirect (outer : Path) (id : Ident) :
    FindsDirect s (enclosingMember outer id) := by
  unfold enclosingMember
  refine .gets fun d => .gets fun b => ?_
  split
  · split
    · exact .pure fun r hr => by cases hr; rfl
    · exact fun _ _ => trivial
  · split
    · exact .pure fun r hr => by cases hr; trivial
    · split
      · exact .pure fun r hr => by cases hr; trivial
      · dsimp only
        split
        · exact .pure fun r hr => by cases hr; trivial
        · refine .gets fun im => .pure fun r hr => ?_
          obtain ⟨_, -, rfl⟩ := Option.map_eq_some_iff.mp hr
          trivial

theorem enclosingMembers_findsDirect (id : Ident) : ∀ outers : List Path,
    FindsDirect s (enclosingMembers id outers)
  | [] => .pure fun r hr => by cases hr
  | outer :: rest => by
    unfold enclosingMembers
    refine Triple.bind (enclosingMember_findsDirect outer id) fun r? => ?_
    cases r? with
    | some r => exact Triple.pure fun _ h => h
    | none =>
      exact Triple.mono (enclosingMembers_findsDirect id rest) (fun _ h => h.1) (fun _ _ h => h)
        fun _ h => h

theorem registered_findsDirect (name : String) : FindsDirect s (registered name) := by
  rintro s rfl
  unfold registered
  by_cases hhost : s.body.isHost = true
  · rw [if_pos hhost]
    cases s.registry.lookup name with
    | none => exact ⟨rfl, by simp⟩
    | some v =>
      cases hslot : s.store.slots[v.slot]? with
      | none =>
        simp only [hslot]
        exact ⟨trivial, by simp⟩
      | some slot =>
        simp only [hslot]
        exact ⟨trivial, fun r hr => by cases hr; trivial⟩
  · rw [if_neg hhost]
    exact ⟨rfl, by simp⟩

theorem hostHelper_findsDirect (name : String) : FindsDirect s (hostHelper name) := by
  unfold hostHelper
  refine .gets fun b => ?_
  split
  · exact .pure fun r hr => by cases hr; trivial
  · exact .pure fun r hr => by cases hr

/-- After a part that finds no change, what it found is taken or the search goes on. -/
theorem FindsDirect.orElse {p : Bind (Option Resolved)} {q : Bind Resolved}
    (hp : FindsDirect s p)
    (hq : Triple (· = s) q (fun r s' => ∀ p t ro, r = .place p t ro → s' = s ∧ p.IsDirect)
      fun _ => True) :
    Triple (· = s) (p >>= fun r? => match r? with
      | some r => Pure.pure r
      | none => q) (fun r s' => ∀ p t ro, r = .place p t ro → s' = s ∧ p.IsDirect)
      fun _ => True := by
  refine Triple.bind hp fun r? => ?_
  cases r? with
  | some r =>
    refine Triple.pure fun s' ⟨hs, hr⟩ p t ro heq => ⟨hs, ?_⟩
    have hdirect := hr r rfl
    rw [heq] at hdirect
    exact hdirect
  | none => exact Triple.mono hq (fun _ h => h.1) (fun _ _ h => h) fun _ h => h

theorem resolveName_direct [NameLookup] {id : Ident} {p : Place} {t : Ty} {ro : Bool}
    (h : resolveName id s = (some (.place p t ro), s')) : s' = s ∧ p.IsDirect := by
  have htriple : Triple (· = s) (resolveName id)
      (fun r s' => ∀ p t ro, r = .place p t ro → s' = s ∧ p.IsDirect) fun _ => True := by
    unfold resolveName
    refine Triple.bind (Q := fun _ s' => s' = s) (Triple.gets fun _ h => h) fun b => ?_
    split
    · next binding _ =>
      refine Triple.pure fun _ hs p t ro heq => ⟨hs, ?_⟩
      cases binding <;> cases heq <;> trivial
    · refine (registered_findsDirect _).orElse ?_
      refine (enclosingMembers_findsDirect _ _).orElse ?_
      refine (hostHelper_findsDirect _).orElse ?_
      refine Triple.bind (Q := fun _ _ => True) (fun s' _ => ?_) fun e? => ?_
      · cases NameLookup.find b.ctx id.name s' with
        | mk r? s'' => cases r? <;> trivial
      · cases e? with
        | some e => exact Triple.pure fun _ _ p t ro heq => by cases e <;> cases heq
        | none => exact fun _ _ => trivial
  exact htriple.of_run rfl h p t ro rfl

/-- Where a name stands matters only when it is refused. -/
def Covers {α : Type} (p q : Bind α) : Prop := ∀ s a s', p s = (some a, s') → q s = (some a, s')

theorem Covers.refl {α : Type} (p : Bind α) : Covers p p := fun _ _ _ h => h

theorem Covers.refuse {α : Type} (problem : Problem) (span : Span) (q : Bind α) :
    Covers (Bind.refuse problem span) q := fun _ _ _ h => by cases h

theorem Covers.bind {α β : Type} {p q : Bind α} {f g : α → Bind β} (h : Covers p q)
    (hf : ∀ a, Covers (f a) (g a)) : Covers (p >>= f) (q >>= g) := by
  intro s b s' hrun
  obtain ⟨a, s₁, hp, hfa⟩ := bind_run hrun
  rw [bind_eq_of_run (h s a s₁ hp)]
  exact hf a s₁ b s' hfa

variable {x : String} {a b : Span}

theorem enclosingMember_covers (outer : Path) :
    Covers (enclosingMember outer ⟨x, a⟩) (enclosingMember outer ⟨x, b⟩) := by
  unfold enclosingMember
  refine (Covers.refl _).bind fun d => (Covers.refl _).bind fun c => ?_
  dsimp only
  cases d.field? x with
  | some f =>
    dsimp only
    split
    · exact .refl _
    · exact .refuse _ _ _
  | none => exact .refl _

theorem enclosingMembers_covers : ∀ outers : List Path,
    Covers (enclosingMembers ⟨x, a⟩ outers) (enclosingMembers ⟨x, b⟩ outers)
  | [] => .refl _
  | outer :: rest => by
    unfold enclosingMembers
    refine (enclosingMember_covers outer).bind fun r? => ?_
    cases r? with
    | some r => exact .refl _
    | none => exact enclosingMembers_covers rest

theorem resolveName_covers [NameLookup] : Covers (resolveName ⟨x, a⟩) (resolveName ⟨x, b⟩) := by
  unfold resolveName
  refine (Covers.refl _).bind fun c => ?_
  dsimp only
  cases c.scopes.lookup x with
  | some binding => exact .refl _
  | none =>
    refine (Covers.refl _).bind fun r? => ?_
    cases r? with
    | some r => exact .refl _
    | none =>
      refine (enclosingMembers_covers _).bind fun r? => ?_
      cases r? with
      | some r => exact .refl _
      | none =>
        refine (Covers.refl _).bind fun r? => ?_
        cases r? with
        | some r => exact .refl _
        | none =>
          refine (Covers.refl _).bind fun e? => ?_
          cases e? with
          | some e => exact .refl _
          | none => exact .refuse _ _ _

theorem cases_of_isNumeric {t : Ty} (h : t.isNumeric = true) : t = .int ∨ t = .long ∨ t = .double := by
  cases t <;> simp_all [Ty.isNumeric]

/-- A number that converts to the type of a place leaves that type the wider one. -/
theorem wider_of_coerce {e e' : BoundExpr} {t u : Ty} {span : Span} (ht : t.isNumeric = true)
    (hu : u.isNumeric = true) (h : coerce e u t span s = (some e', s')) :
    t.wider u = t ∧ s' = s := by
  rcases cases_of_isNumeric ht with rfl | rfl | rfl <;>
    rcases cases_of_isNumeric hu with rfl | rfl | rfl <;> cases h <;> exact ⟨rfl, rfl⟩

theorem coerce_self (e : BoundExpr) (t : Ty) (span : Span) : coerce e t t span = pure e := by
  simp [coerce]

theorem coerce_covers (e : BoundExpr) (u t : Ty) : Covers (coerce e u t a) (coerce e u t b) := by
  unfold coerce
  split
  · exact .refl _
  · split
    · exact .refl _
    · refine (Covers.refl _).bind fun im => ?_
      split
      · exact .refl _
      · exact .refuse _ _ _

/-- A value of the wider type stays as it is, and the other side converts to it. -/
theorem widened_of_coerce {e e' : BoundExpr} {t : Ty} {v : Typed} {vs : Span}
    (hwider : t.wider v.type = t) (h : coerce v.expr v.type t vs s = (some e', s)) :
    widened ⟨e, t⟩ v a b s = (some (e, e'), s) := by
  simp only [widened, hwider, coerce_self]
  exact bind_eq_of_run (coerce_covers _ _ _ _ _ _ h)

/-- Where an operation in place is accepted, so is the operation itself, with the type of the place;
its result is what the operation in place stores. -/
theorem strict_of_compound {op : ArithOp} {p : Place} {t : Ty} {v w : Typed} {vs : Span}
    (h : compound a op p t v vs s = (some w, s')) :
    ∃ how e', w = ⟨.compound p how e', t⟩ ∧ t ≠ .void ∧ s' = s ∧
      ∀ span ls rs, strict span op.toBinary ⟨.load p, t⟩ v ls rs s =
        (some ⟨.binary how (.load p) e', t⟩, s) := by
  have hstrict : ∀ span ls rs, strict span op.toBinary ⟨.load p, t⟩ v ls rs =
      calculated span op ⟨.load p, t⟩ v ls rs := by
    intro span ls rs
    cases op <;> rfl
  simp only [hstrict]
  unfold compound at h
  unfold calculated
  split at h
  · next hconcat =>
    obtain ⟨rfl, rfl⟩ := hconcat
    cases h
    refine ⟨.concat, v.expr, rfl, by simp, rfl, fun span ls rs => ?_⟩
    rw [if_pos ⟨rfl, .inl rfl⟩]
    rfl
  · split at h
    · next hconcat hnum =>
      obtain ⟨ht, hv⟩ := Bool.and_eq_true_iff.mp hnum
      obtain ⟨e', s₁, hcoerce, hpure⟩ := bind_run h
      cases hpure
      have hne : ∀ {u : Ty}, u.isNumeric = true → u ≠ .string := by
        rintro u hu rfl
        cases hu
      obtain ⟨hwider, rfl⟩ := wider_of_coerce ht hv hcoerce
      refine ⟨.arith op t.numKind, e', rfl, (by rintro rfl; cases ht), rfl, fun span ls rs => ?_⟩
      rw [if_neg fun hc => hc.2.elim (hne ht) (hne hv), if_pos hnum]
      dsimp only
      rw [hwider]
      exact bind_eq_of_run (widened_of_coerce hwider hcoerce)
    · cases h

theorem demandValue_of_demand {r : Resolved} {v : Typed} (h : demand a r s = (some v, s'))
    (hv : v.type ≠ .void) : demandValue a r s = (some v, s') := by
  refine (bind_eq_of_run h).trans ?_
  rw [if_neg hv]
  rfl

theorem demandValue_covers (r : Resolved) : Covers (demandValue a r) (demandValue b r) := by
  refine Covers.bind ?_ fun v => ?_
  · cases r with
    | value | place => exact .refl _
    | type | space | methods => exact .refuse _ _ _
  · split
    · exact .refuse _ _ _
    · exact .refl _

section

variable [NameLookup]

/-- A simple name that may be assigned denotes a direct place, and it may be read as well. -/
theorem resolve_name_direct {r : Resolved} {p : Place} {t : Ty} {s₁ s₂ : BindState}
    (hname : resolve (.name b x) s = (some r, s₁))
    (hplace : demandPlace a r s₁ = (some (p, t), s₂)) :
    s₁ = s ∧ s₂ = s ∧ p.IsDirect ∧ r = .place p t false ∧
      ∀ c, resolve (.name c x) s = (some r, s) := by
  cases r with
  | place q u ro =>
    cases ro with
    | true => cases hplace
    | false =>
      cases hplace
      rw [resolve] at hname
      obtain ⟨rfl, hdirect⟩ := resolveName_direct hname
      refine ⟨rfl, rfl, hdirect, rfl, fun c => ?_⟩
      rw [resolve]
      exact resolveName_covers _ _ _ hname
  | value | type | space | methods => cases hplace

/-- The operation that an assignment abbreviates, on the place as it is read and the right side. -/
theorem resolve_binary_of_runs {op : ArithOp} {l r : Expr} {v w z : Typed} {c : Span} {s₁ : BindState}
    (hl : value l s = (some v, s)) (hr : value r s = (some w, s₁))
    (hstrict : strict c op.toBinary v w l.span r.span s₁ = (some z, s')) :
    resolve (.binary c op.toBinary l r) s = (some (ofTyped z), s') := by
  have hop : ¬(op.toBinary = .and ∨ op.toBinary = .or) := by cases op <;> simp [ArithOp.toBinary]
  have hl' : Attempt.optional (value l) s = (some (some v), s) := by
    unfold Attempt.optional
    rw [hl]
  have hr' : Attempt.optional (value r) s = (some (some w), s₁) := by
    unfold Attempt.optional
    rw [hr]
  rw [resolve, if_neg hop]
  refine (bind_eq_of_run hl').trans ((bind_eq_of_run hr').trans ?_)
  exact bind_eq_of_run hstrict

/-- An assignment of an operation to a simple name, from the runs of its parts. -/
theorem expr_assign_of_runs {p : Place} {t : Ty} {how : ValueOp} {op : ArithOp} {e : Expr}
    {e' : BoundExpr} {v : Typed} {d : Span} (ht : t ≠ .void)
    (hname : ∀ c, resolve (.name c x) s = (some (.place p t false), s))
    (he : value e s = (some v, s'))
    (hop : ∀ rs, strict b op.toBinary ⟨.load p, t⟩ v d rs s' =
      (some ⟨.binary how (.load p) e', t⟩, s')) (c : Span) :
    expr (.assign a none (.name c x) (.binary b op.toBinary (.name d x) e)) s =
      (some ⟨.assign p (.binary how (.load p) e'), t⟩, s') := by
  have hread : value (.name d x) s = (some ⟨.load p, t⟩, s) :=
    (bind_eq_of_run (hname d)).trans (demandValue_of_demand rfl ht)
  have hbinary := resolve_binary_of_runs hread he (hop e.span)
  have hconverted : demandType t b (ofTyped ⟨.binary how (.load p) e', t⟩) s' =
      (some (.binary how (.load p) e'), s') := by
    refine (bind_eq_of_run (demandValue_of_demand rfl ht)).trans ?_
    rw [coerce_self]
    rfl
  have hassign : resolve (.assign a none (.name c x) (.binary b op.toBinary (.name d x) e)) s =
      (some (.value (.assign p (.binary how (.load p) e')) t), s') := by
    rw [resolve]
    refine (bind_eq_of_run (hname c)).trans ((bind_eq_of_run (a := (p, t)) rfl).trans ?_)
    exact (bind_eq_of_run hbinary).trans (bind_eq_of_run hconverted)
  exact bind_eq_of_run hassign

/-- `x op= e` abbreviates `x = x op e`, with or without parentheses around `e`: where the one is
accepted the other is, with the same type and the same issues, and from every state of the machine
they do the same. -/
theorem expr_compound {op : ArithOp} {e : Expr} {v : Typed}
    (h : expr (.assign a (some op) (.name b x) e) s = (some v, s')) (a' b' c d q : Span) :
    ∀ e' ∈ [e, .paren q e], ∃ v',
      expr (.assign a' none (.name b' x) (.binary c op.toBinary (.name d x) e')) s =
        (some v', s') ∧ v'.type = v.type ∧
      ∀ env calls, Machine.eval env calls v'.expr = Machine.eval env calls v.expr := by
  obtain ⟨r, s₁, hresolve, hdemand⟩ := bind_run h
  rw [resolve] at hresolve
  obtain ⟨rx, s₂, hname, hrest⟩ := bind_run hresolve
  obtain ⟨⟨p, t⟩, s₃, hplace, hrest'⟩ := bind_run hrest
  obtain ⟨rfl, rfl, hdirect, rfl, hread⟩ := resolve_name_direct hname hplace
  obtain ⟨re, s₄, hright, hoperate⟩ := bind_run hrest'
  obtain ⟨w, s₅, hvalue, hoperate'⟩ := bind_run hoperate
  obtain ⟨w', s₆, hcompound, hpure⟩ := bind_run hoperate'
  cases hpure
  cases hdemand
  obtain ⟨how, bound, rfl, hvoid, rfl, hstrict⟩ := strict_of_compound hcompound
  intro e' he'
  have hvalue' : value e' s₃ = (some w, s') := by
    simp only [List.mem_cons, List.not_mem_nil, or_false] at he'
    rcases he' with rfl | rfl
    · exact (bind_eq_of_run hright).trans hvalue
    · have hparen : resolve (.paren q e) s₃ = (some re, s₄) := by
        rw [resolve]
        exact hright
      exact (bind_eq_of_run hparen).trans (demandValue_covers re _ _ _ hvalue)
  exact ⟨_, expr_assign_of_runs hvoid hread hvalue' (hstrict c d) b', rfl, fun env calls =>
    (Machine.eval_compound_of_isDirect hdirect how bound).symm⟩

end

/-- `x -= x = 5` reads `x` before it assigns 5, and so does `x = x - (x = 5)`. -/
theorem expr_compound_reassigned :
    let z : Span := ⟨1, 1, 1, 1⟩
    let scopes := (Scopes.ofKind .host).insert "x" (.frame 0 .long false)
    let s := { BindState.start Builtin.image .empty Builtin.store with
      body := { BodyContext.host with scopes } }
    let e : Expr := .assign z none (.name z "x") (.int z 5)
    let v : Typed := ⟨.compound (.frame 0) (.arith .sub .int)
      (.assign (.frame 0) (.const (.int 5))), .long⟩
    expr (.assign z (some .sub) (.name z "x") e) s = (some v, s) ∧
    ∃ v', expr (.assign z none (.name z "x") (.binary z .sub (.name z "x") (.paren z e))) s =
        (some v', s) ∧ v'.type = .long ∧
      ∀ env calls, Machine.eval env calls v'.expr = Machine.eval env calls v.expr := by
  intro z scopes s e v
  have h : expr (.assign z (some .sub) (.name z "x") e) s = (some v, s) := by rfl
  exact ⟨h, expr_compound h z z z z z (.paren z e) (by simp)⟩

end Bind

end Chunkwise
