import Chunkwise.Binder.Expr
import Chunkwise.Proofs.Binder.Member

namespace Chunkwise

open Attempt

/-- A bound expression has the type it comes with. -/
def Typed.Ok (c : TypingContext) (v : Typed) : Prop :=
  v.expr.HasType c v.type ∧ c.image.Knows v.type

/-- A typed expression that is not void. -/
def Typed.IsValue (c : TypingContext) (v : Typed) : Prop := v.Ok c ∧ v.type ≠ .void

def Arg.Ok (c : TypingContext) (a : Arg) : Prop := a.expr.HasType c a.type

/-- Typed, and nothing but what is open is written. -/
def Typed.Sound (c : TypingContext) (A : Place → Prop) (v : Typed) : Prop :=
  v.Ok c ∧ v.expr.WritesOnly A

def Arg.Sound (c : TypingContext) (A : Place → Prop) (a : Arg) : Prop := a.Ok c ∧ a.expr.WritesOnly A

/-- An expression that passes for one of this type, if there is such a type, and writes nothing but what
is open. -/
def BoundExpr.Serves (c : TypingContext) (A : Place → Prop) (t : Ty) (e : BoundExpr) : Prop :=
  (c.image.Knows t → e.Fits c t) ∧ e.WritesOnly A

namespace Ty

variable {a b s t : Ty}

theorem numKind_of (h : t.isNumeric = true) : t.numKind.Of t := by
  cases t <;> simp_all [isNumeric, numKind, NumKind.Of, isIntegral]

theorem isNumeric_wider (a b : Ty) : (a.wider b).isNumeric = true := by
  unfold wider
  split
  · rfl
  · split <;> rfl

theorem knows_of_isNumeric {im : Image} (h : t.isNumeric = true) : im.Knows t := by
  cases t <;> trivial

end Ty

theorem numKind_of_passes {im : Image} {s t : Ty} (ht : t.isNumeric = true) (h : im.Passes s t) :
    t.numKind.Of s := by
  rcases h with rfl | ⟨ha, hd, -⟩
  · exact Ty.numKind_of ht
  · unfold Image.isAssignable at ha
    rcases Bool.or_eq_true_iff.mp ha with heq | ha
    · rw [eq_of_beq heq]
      exact Ty.numKind_of ht
    · cases t <;> simp [Ty.isNumeric] at ht hd <;> cases s <;>
        simp_all [Image.isNullable, Ty.numKind, NumKind.Of, Ty.isIntegral]

theorem BoundExpr.Fits.numeric {c : TypingContext} {e : BoundExpr} {t : Ty} (h : e.Fits c t)
    (ht : t.isNumeric = true) : ∃ s, e.HasType c s ∧ t.numKind.Of s := by
  obtain ⟨s, he, hs⟩ := h
  exact ⟨s, he, numKind_of_passes ht hs⟩

namespace Bind

variable {s₀ : BindState} {c : TypingContext} {A : Place → Prop}

theorem demand_sound {r : Resolved} (hr : r.Sound c A) (span : Span) :
    Yields s₀.Quiet (demand span r) fun v => v.Sound c A := by
  unfold demand
  split
  · exact Yields.pure hr
  · exact Yields.pure ⟨hr.1, hr.2.1⟩
  · exact refuse_quiet _ _
  · exact refuse_quiet _ _
  · exact refuse_quiet _ _

theorem demandValue_sound {r : Resolved} (hr : r.Sound c A) (span : Span) :
    Yields s₀.Quiet (demandValue span r) fun v => v.Sound c A ∧ v.type ≠ .void := by
  unfold demandValue
  refine (demand_sound hr span).bind fun v hv => ?_
  split
  · exact refuse_quiet _ _
  · next hvoid => exact Yields.pure ⟨hv, hvoid⟩

theorem not_assignable_double {im : Image} {s : Ty} (hs : s ≠ .double)
    (hi : s.isIntegral = false) : im.isAssignable s .double = false := by
  cases s <;> simp_all [Image.isAssignable, Image.isNullable, Ty.isIntegral]

theorem coerce_sound (h : s₀.Fits c) {e : BoundExpr} {s t : Ty} (he : e.HasType c s)
    (hw : e.WritesOnly A) (span : Span) :
    Yields s₀.Quiet (coerce e s t span) fun e' => e'.Serves c A t := by
  unfold coerce
  split
  · next heq => exact Yields.pure ⟨fun _ => ⟨s, he, .inl heq⟩, hw⟩
  · next hne =>
    split
    · next hwiden =>
      simp only [Bool.and_eq_true, beq_iff_eq] at hwiden
      obtain ⟨hi, rfl⟩ := hwiden
      exact Yields.pure ⟨fun _ => BoundExpr.HasType.fits ⟨⟨s, he, hi⟩, rfl⟩, hw⟩
    · next hwiden =>
      refine (image_fits h).bind fun im him => ?_
      subst him
      split
      · next ha =>
        refine Yields.pure ⟨fun ht => ⟨s, he, .inr ⟨ha, ?_, ht⟩⟩, hw⟩
        rintro rfl
        have hi : s.isIntegral = false := by simpa using hwiden
        simp [not_assignable_double hne hi] at ha
      · exact refuse_quiet _ _

theorem demandType_sound (h : s₀.Fits c) {r : Resolved} (hr : r.Sound c A) (t : Ty) (span : Span) :
    Yields s₀.Quiet (demandType t span r) fun e => e.Serves c A t :=
  (demandValue_sound hr span).bind fun _ hv => coerce_sound h hv.1.1.1 hv.1.2 span

/-- A location that may be assigned. -/
theorem demandPlace_sound {r : Resolved} (hr : r.Sound c A) (span : Span) :
    Yields s₀.Quiet (demandPlace span r) fun x =>
      (x.1.HasType c x.2 ∧ c.image.Knows x.2) ∧ x.1.WritesOnly A ∧ A x.1 := by
  unfold demandPlace
  split
  · split
    · exact refuse_quiet _ _
    · next hopen =>
      exact Yields.pure ⟨hr.1, hr.2.1, hr.2.2 (Bool.eq_false_iff.mpr hopen)⟩
  · exact refuse_quiet _ _

theorem hasType_bool {e : BoundExpr} (h : e.Fits c .bool) : e.HasType c .bool := by
  obtain ⟨s, he, rfl | ⟨ha, -, -⟩⟩ := h
  · exact he
  · cases s <;> simp_all [Image.isAssignable, Image.isNullable]

theorem literal_sound (n : Int64) : (literal n).Sound c A := by
  unfold literal Ty.ofLiteral Typed.Sound Typed.Ok
  refine ⟨?_, .const _⟩
  split
  · exact ⟨⟨⟨n, rfl⟩, trivial⟩, trivial⟩
  · exact ⟨⟨⟨n, rfl⟩, trivial⟩, trivial⟩

theorem stepped_sound {p : Place} {t : Ty} (hp : p.HasType c t ∧ c.image.Knows t)
    (hw : p.WritesOnly A ∧ A p) (span : Span) (op : StepOp) (leading : Bool) :
    Yields s₀.Quiet (stepped span op leading p t) fun v => v.Sound c A := by
  unfold stepped
  split
  · next hn =>
    exact Yields.pure ⟨⟨⟨hp.1, Ty.numKind_of hn⟩, hp.2⟩, .step hw.1 hw.2 _ _ _⟩
  · exact refuse_quiet _ _

theorem unary_sound {v : Typed} (hv : v.Sound c A) (span : Span) (op : UnaryOp) :
    Yields s₀.Quiet (unary span op v) fun v => v.Sound c A := by
  obtain ⟨hok, hw⟩ := hv
  unfold unary
  split
  · split
    · next hn => exact Yields.pure ⟨⟨⟨hok.1, Ty.numKind_of hn⟩, hok.2⟩, hw⟩
    · exact refuse_quiet _ _
  · split
    · exact Yields.pure ⟨hok, hw⟩
    · exact refuse_quiet _ _
  · split
    · next hb => exact Yields.pure ⟨⟨⟨hb ▸ hok.1, rfl⟩, trivial⟩, hw⟩
    · exact refuse_quiet _ _

theorem knows_commonType {im : Image} {l r t : Ty} (h : commonType? im l r = some t)
    (hl : im.Knows l) (hr : im.Knows r) : im.Knows t := by
  unfold commonType? at h
  split at h
  · cases h
    exact hl
  · split at h
    · cases h
      exact hr
    · cases h

section Operands

variable (h : s₀.Fits c) {l r : Typed} (hl : l.Sound c A) (hr : r.Sound c A)
include h hl hr

theorem widened_sound (ls rs : Span) : Yields s₀.Quiet (widened l r ls rs) fun x =>
    (x.1.Fits c (l.type.wider r.type) ∧ x.1.WritesOnly A) ∧
      x.2.Fits c (l.type.wider r.type) ∧ x.2.WritesOnly A := by
  have hk : c.image.Knows (l.type.wider r.type) := Ty.knows_of_isNumeric (Ty.isNumeric_wider _ _)
  unfold widened
  refine (coerce_sound h hl.1.1 hl.2 ls).bind fun le hle => ?_
  refine (coerce_sound h hr.1.1 hr.2 rs).bind fun re hre => Yields.pure ?_
  exact ⟨⟨hle.1 hk, hle.2⟩, hre.1 hk, hre.2⟩

theorem coalesced_sound (span ls rs : Span) :
    Yields s₀.Quiet (coalesced span l r ls rs) fun v => v.Sound c A := by
  unfold coalesced
  refine (image_fits h).bind fun im him => ?_
  subst him
  split
  · next t hc =>
    have ht : c.image.Knows t := by
      split at hc
      · exact knows_commonType hc hl.1.2 hr.1.2
      · cases hc
    refine (coerce_sound h hl.1.1 hl.2 ls).bind fun le hle => ?_
    refine (coerce_sound h hr.1.1 hr.2 rs).bind fun re hre => Yields.pure ?_
    exact ⟨⟨⟨hle.1 ht, hre.1 ht⟩, ht⟩, .coalesce hle.2 hre.2⟩
  · exact refuse_quiet _ _

theorem compared_sound {how : ValueOp} (hhow : how = .equal ∨ how = .notEqual) (span : Span)
    (op : BinaryOp) (ls rs : Span) :
    Yields s₀.Quiet (compared span op how l r ls rs) fun v => v.Sound c A := by
  have htakes : ∀ a b, how.Takes a b .bool := by
    rcases hhow with rfl | rfl <;> exact fun _ _ => rfl
  unfold compared
  split
  · refine (widened_sound h hl hr ls rs).bind fun x hx => ?_
    obtain ⟨⟨⟨a, ha, -⟩, hwl⟩, ⟨b, hb, -⟩, hwr⟩ := hx
    exact Yields.pure ⟨⟨⟨a, b, ha, hb, htakes a b⟩, trivial⟩, .binary hwl hwr how⟩
  · refine (image_fits h).bind fun im him => ?_
    split
    · exact Yields.pure ⟨⟨⟨_, _, hl.1.1, hr.1.1, htakes _ _⟩, trivial⟩, .binary hl.2 hr.2 how⟩
    · exact refuse_quiet _ _

theorem ordered_sound (span : Span) (op : BinaryOp) (how : CompareOp) (ls rs : Span) :
    Yields s₀.Quiet (ordered span op how l r ls rs) fun v => v.Sound c A := by
  have hnum := Ty.isNumeric_wider l.type r.type
  unfold ordered
  split
  · refine (widened_sound h hl hr ls rs).bind fun x hx => ?_
    obtain ⟨a, ha, hka⟩ := hx.1.1.numeric hnum
    obtain ⟨b, hb, hkb⟩ := hx.2.1.numeric hnum
    exact Yields.pure ⟨⟨⟨a, b, ha, hb, hka, hkb, rfl⟩, trivial⟩, .binary hx.1.2 hx.2.2 _⟩
  · exact refuse_quiet _ _

theorem calculated_sound (span : Span) (op : ArithOp) (ls rs : Span) :
    Yields s₀.Quiet (calculated span op l r ls rs) fun v => v.Sound c A := by
  have hnum := Ty.isNumeric_wider l.type r.type
  unfold calculated
  split
  · exact Yields.pure ⟨⟨⟨_, _, hl.1.1, hr.1.1, rfl⟩, trivial⟩, .binary hl.2 hr.2 _⟩
  · split
    · simp only
      refine (widened_sound h hl hr ls rs).bind fun x hx => ?_
      obtain ⟨a, ha, hka⟩ := hx.1.1.numeric hnum
      obtain ⟨b, hb, hkb⟩ := hx.2.1.numeric hnum
      refine Yields.pure ⟨⟨?_, Ty.knows_of_isNumeric hnum⟩, .binary hx.1.2 hx.2.2 _⟩
      exact ⟨a, b, ha, hb, hka, hkb, Ty.numKind_of hnum⟩
    · exact refuse_quiet _ _

theorem strict_sound (span : Span) (op : BinaryOp) (ls rs : Span) :
    Yields s₀.Quiet (strict span op l r ls rs) fun v => v.Sound c A := by
  cases op with
  | coalesce => exact coalesced_sound h hl hr _ _ _
  | eq => exact compared_sound h hl hr (.inl rfl) _ _ _ _
  | ne => exact compared_sound h hl hr (.inr rfl) _ _ _ _
  | lt | le | gt | ge => exact ordered_sound h hl hr _ _ _ _ _
  | add | sub | mul | div | rem => exact calculated_sound h hl hr _ _ _ _
  | or | and => exact Yields.fail

theorem conditional_sound {test : BoundExpr} (htest : test.HasType c .bool) (hw : test.WritesOnly A)
    (span ls rs : Span) :
    Yields s₀.Quiet (conditional span test l r ls rs) fun v => v.Sound c A := by
  unfold conditional
  refine (image_fits h).bind fun im him => ?_
  subst him
  split
  · next t hc =>
    have ht := knows_commonType hc hl.1.2 hr.1.2
    refine (coerce_sound h hl.1.1 hl.2 ls).bind fun le hle => ?_
    refine (coerce_sound h hr.1.1 hr.2 rs).bind fun re hre => Yields.pure ?_
    exact ⟨⟨⟨htest, hle.1 ht, hre.1 ht⟩, ht⟩, .cond hw hle.2 hre.2⟩
  · exact refuse_quiet _ _

end Operands

theorem compound_sound (h : s₀.Fits c) {p : Place} {t : Ty} {v : Typed}
    (hp : p.HasType c t ∧ c.image.Knows t) (hw : p.WritesOnly A ∧ A p) (hv : v.Sound c A) (span : Span)
    (op : ArithOp) (vs : Span) :
    Yields s₀.Quiet (compound span op p t v vs) fun v => v.Sound c A := by
  unfold compound
  split
  · next hs =>
    exact Yields.pure ⟨⟨⟨hp.1, _, hv.1.1, hs.2⟩, hp.2⟩, .compound hw.1 hw.2 hv.2 _⟩
  · split
    · next hn =>
      simp only [Bool.and_eq_true] at hn
      refine (coerce_sound h hv.1.1 hv.2 vs).bind fun e he => ?_
      obtain ⟨s, hes, hk⟩ := (he.1 hp.2).numeric hn.1
      refine Yields.pure ⟨⟨?_, hp.2⟩, .compound hw.1 hw.2 he.2 _⟩
      exact ⟨hp.1, s, hes, Ty.numKind_of hn.1, hk, Ty.numKind_of hn.1⟩
    · exact refuse_quiet _ _

theorem foldl_cheaper_mem {α : Type} {xs : List (Nat × α)} {best : Option (Nat × α)}
    {x : Nat × α} (h : xs.foldl Image.cheaper best = some x) : x ∈ xs ∨ best = some x := by
  induction xs generalizing best with
  | nil => exact .inr h
  | cons y ys ih =>
    rcases ih h with hx | hx
    · exact .inl (List.mem_cons_of_mem _ hx)
    · unfold Image.cheaper at hx
      split at hx
      · cases hx
        exact .inl (by simp)
      · split at hx
        · cases hx
          exact .inl (by simp)
        · exact .inr hx

theorem selectOverload_mem {α : Type} {im : Image} {candidates : List (α × Method)}
    {args : List Ty} {x : α × Method} (h : im.selectOverload candidates args = .ok x) :
    x ∈ candidates ∧ x.2.params.length = args.length := by
  unfold Image.selectOverload at h
  simp only at h
  split at h
  · cases h
  · split at h
    · next y hy =>
      cases h
      obtain ⟨⟨cost, z⟩, hfold, rfl⟩ := Option.map_eq_some_iff.mp hy
      rcases foldl_cheaper_mem hfold with hmem | hnone
      · obtain ⟨w, hw, hcost⟩ := List.mem_filterMap.mp hmem
        obtain ⟨_, _, heq⟩ := Option.map_eq_some_iff.mp hcost
        cases heq
        simpa using hw
      · cases hnone
    · cases h

theorem chooseOverload_chosen {α : Type} {name : String} {candidates : List (α × Method)}
    {args : List Arg} {span : Span} :
    Yields s₀.Quiet (chooseOverload name candidates args span) fun x =>
      x ∈ candidates ∧ x.2.params.length = args.length := by
  unfold chooseOverload
  simp only
  refine image_quiet.bind fun im _ => ?_
  split
  · next hx => exact Yields.pure (by simpa using selectOverload_mem hx)
  · exact refuse_quiet _ _
  · exact refuse_quiet _ _

/-- Arguments converted one by one pass for the parameters. -/
theorem fit_of_forall₂ {bs : List BoundExpr} : ∀ {ts : List Ty} {args : List Arg},
    ts.length = args.length →
    List.Forall₂ (fun (p : Ty × Arg) b => BoundExpr.Fits c b p.1) (ts.zip args) bs →
    BoundExpr.Fit c bs ts := by
  induction bs with
  | nil =>
    intro ts args hlen h
    cases ts with
    | nil => trivial
    | cons t ts =>
      cases args with
      | nil => cases hlen
      | cons a args => cases h
  | cons b bs ih =>
    intro ts args hlen h
    cases ts with
    | nil => cases h
    | cons t ts =>
      cases args with
      | nil => cases hlen
      | cons a args =>
        cases h with
        | cons hb hbs => exact ⟨hb, ih (by simpa using hlen) hbs⟩

theorem convertArgs_sound (h : s₀.Fits c) {m : Method} {args : List Arg} (hm : m.SigOk c.image)
    (hlen : m.params.length = args.length) (hargs : ∀ a ∈ args, a.Sound c A) :
    Yields s₀.Quiet (convertArgs m args) fun es =>
      BoundExpr.Fit c es m.paramTypes ∧ ∀ e ∈ es, e.WritesOnly A := by
  unfold convertArgs
  have heach : ∀ x ∈ m.paramTypes.zip args, Yields s₀.Quiet
      (coerce x.2.expr x.2.type x.1 x.2.span) fun e => e.Fits c x.1 ∧ e.WritesOnly A := by
    rintro ⟨t, a⟩ hx
    have hmem := List.of_mem_zip hx
    obtain ⟨ha, hw⟩ := hargs a hmem.2
    exact (coerce_sound h ha hw _).mono fun e he => ⟨he.1 (hm.params t hmem.1), he.2⟩
  refine (Yields.forAll heach).bind fun out hout => Yields.ofOption fun es hes => ?_
  rw [allSome_eq_some hes, List.forall₂_map_right_iff] at hout
  refine ⟨fit_of_forall₂ (by simpa [Method.paramTypes] using hlen) ?_, fun e he => ?_⟩
  · exact hout.imp fun x e he => (he e rfl).1
  · obtain ⟨i, hi, rfl⟩ := List.getElem_of_mem he
    exact ((List.forall₂_iff_get.mp hout).2 i (by have := hout.length_eq; omega) hi _ rfl).2

theorem callText_sound {receiver : Option BoundExpr} {args : List Arg} {span : Span}
    (h : ∀ e, receiver = some e → (∃ t, e.HasType c t) ∧ e.WritesOnly A) :
    Yields s₀.Quiet (callText receiver args span) fun v => v.Sound c A := by
  unfold callText
  split
  · refine Yields.bind (Q := fun e => receiver = some e) (Yields.ofOption fun _ he => he)
      fun e he => ?_
    obtain ⟨het, hw⟩ := h e he
    exact Yields.pure ⟨⟨⟨het, rfl⟩, trivial⟩, hw⟩
  · exact refuse_quiet _ _

theorem call_sound (h : s₀.Fits c) {group : MethodGroup} (hg : (Resolved.methods group).Sound c A)
    {args : List Arg} (hargs : ∀ a ∈ args, a.Sound c A) (span : Span) :
    Yields s₀.Quiet (call group args span) fun v => v.Sound c A := by
  obtain ⟨name, receiver, candidates, dispatch⟩ := group
  obtain ⟨hg, hw⟩ := hg
  unfold call
  cases dispatch with
  | toText => exact callText_sound fun e he => ⟨hg e he, hw e he⟩
  | virtual =>
    rw [if_neg (by simp)]
    refine chooseOverload_chosen.bind fun x hx => ?_
    obtain ⟨ref, m⟩ := x
    obtain ⟨hmem, hlen⟩ := hx
    obtain ⟨target, p, d, rfl, ht, hd, hk, hcandidates⟩ := hg
    obtain ⟨i, href, hmi⟩ := hcandidates (ref, m) hmem
    have hsig := (h.sigs p d hd).methods m (List.mem_of_getElem? hmi)
    refine (convertArgs_sound h hsig hlen hargs).bind fun es hes => ?_
    rw [if_pos rfl]
    refine Yields.bind (Q := fun e => target = e) (Yields.ofOption fun _ he => by cases he; rfl)
      fun e he => ?_
    subst he
    refine Yields.pure ⟨⟨?_, hsig.returns⟩, .callVirtual (hw _ rfl) hes.2 _⟩
    exact ⟨p, d, i, m, href, ht, hd, hk, hmi, hes.1, rfl⟩
  | direct =>
    rw [if_neg (by simp)]
    refine chooseOverload_chosen.bind fun x hx => ?_
    obtain ⟨ref, m⟩ := x
    obtain ⟨hmem, hlen⟩ := hx
    obtain ⟨hm, hobject⟩ := hg (ref, m) hmem
    have hsig := sigOk_of_method? h.sigs hm
    refine (convertArgs_sound h hsig hlen hargs).bind fun es hes => ?_
    rw [if_neg (by simp)]
    split
    · next hs =>
      exact Yields.pure ⟨⟨⟨m, hm, hs, hes.1, rfl⟩, hsig.returns⟩, .callStatic hes.2 _⟩
    · next hs =>
      have hs : m.isStatic = false := by simpa using hs
      split
      · next target hr =>
        obtain ⟨p, d, i, href, ht, hd, ho, hmi⟩ := hobject hs target hr
        refine Yields.pure ⟨⟨?_, hsig.returns⟩, .callDirect (hw target hr) hes.2 _⟩
        exact ⟨p, d, i, m, href, ht, hd, ho, hmi, hs, hes.1, rfl⟩
      · exact refuse_quiet _ _

theorem instantiable_fits (h : s₀.Fits c) (ref : TypeRef) (span : Span) :
    Yields s₀.Quiet (instantiable ref span) fun x =>
      c.image.typeDef? x.1 = some x.2 ∧ x.2.Instantiable := by
  unfold instantiable
  refine body_quiet.bind fun b _ => ?_
  refine (resolveValueType_quiet h.usings _ ref).bind fun t ht => ?_
  split
  · next p =>
    refine (typeDef_fits h p).bind fun d hd => ?_
    have hp : c.image.typeDef? p = some d := by
      obtain ⟨d', hd'⟩ := ht.1
      rw [hd, h.image, hd']
      rfl
    split
    · exact refuse_quiet _ _
    · next ho =>
      split
      · exact refuse_quiet _ _
      · next hs =>
        split
        · exact refuse_quiet _ _
        · next ha => exact Yields.pure ⟨hp, by simpa using ho, by simpa using hs, by simpa using ha⟩
  · exact refuse_quiet _ _

theorem construct_sound (h : s₀.Fits c) {p : Path} {d : TypeDef} (hd : c.image.typeDef? p = some d)
    (hi : d.Instantiable) {args : List Arg} (hargs : ∀ a ∈ args, a.Sound c A) (span : Span) :
    Yields s₀.Quiet (construct p d args span) fun v => v.Sound c A := by
  unfold construct
  split
  · split
    · exact Yields.pure ⟨⟨⟨rfl, rfl, d, hd, hi⟩, d, hd⟩, .new (by simp) _ _⟩
    · exact refuse_quiet _ _
  · simp only
    refine chooseOverload_chosen.bind fun x hx => ?_
    obtain ⟨i, m⟩ := x
    obtain ⟨hmem, hlen⟩ := hx
    have hmi : d.constructors[i]? = some m := by
      obtain ⟨⟨n, j⟩, hj, heq⟩ := List.mem_map.mp hmem
      cases heq
      exact List.mem_zipIdx_iff_getElem?.mp hj
    have hsig := ((h.sigs p d hd).constructors m (List.mem_of_getElem? hmi)).1
    refine (convertArgs_sound h hsig hlen hargs).bind fun es hes => ?_
    exact Yields.pure ⟨⟨⟨rfl, d, m, hd, hi, hmi, hes.1⟩, d, hd⟩, .new hes.2 _ _⟩

theorem allSome_args_sound {args : List (Option Arg)}
    (h : ∀ a? ∈ args, ∀ a, a? = some a → a.Sound c A) :
    Yields s₀.Quiet (Attempt.ofOption (Attempt.allSome args)) fun as => ∀ a ∈ as, a.Sound c A := by
  refine Yields.ofOption fun as has a ha => ?_
  rw [allSome_eq_some has] at h
  exact h (some a) (List.mem_map_of_mem ha) a rfl

mutual

theorem resolve_sound (h : s₀.Fits c) (hA : s₀.Opens c A) :
    ∀ e : Expr, Yields s₀.Quiet (resolve e) fun r => r.Sound c A
  | .name span id => by
    unfold resolve
    exact resolveName_sound h hA _
  | .member _ target id => by
    unfold resolve
    exact (resolve_sound h hA target).bind fun r hr => memberOf_sound h hA hr id
  | .paren _ inner => by
    unfold resolve
    exact resolve_sound h hA inner
  | .int _ n => by
    unfold resolve
    exact Yields.pure (literal_sound n)
  | .double _ x => by
    unfold resolve
    exact Yields.pure ⟨⟨⟨⟨x, rfl⟩, trivial⟩, trivial⟩, .const _⟩
  | .str _ s => by
    unfold resolve
    exact Yields.pure ⟨⟨⟨.inr ⟨s, rfl⟩, trivial⟩, trivial⟩, .const _⟩
  | .bool _ b => by
    unfold resolve
    exact Yields.pure ⟨⟨⟨⟨b, rfl⟩, trivial⟩, trivial⟩, .const _⟩
  | .null _ => by
    unfold resolve
    exact Yields.pure ⟨⟨⟨rfl, trivial⟩, trivial⟩, .const _⟩
  | .thisRef span => by
    unfold resolve
    refine body_quiet.bind fun b hb => ?_
    subst hb
    split
    · next p hp =>
      obtain ⟨d, hd, -⟩ := h.objects p (h.self.trans hp)
      exact Yields.pure ⟨⟨⟨p, h.self.trans hp, rfl⟩, d, hd⟩, .thisRef⟩
    · exact refuse_quiet _ _
  | .call span callee args => by
    unfold resolve
    refine (resolve_sound h hA callee).bind fun r hr => ?_
    split
    · refine (resolveArgs_sound h hA args).bind fun as? has => ?_
      refine (allSome_args_sound has).bind fun as has => ?_
      exact (call_sound h hr has span).bind fun v hv => Yields.pure hv
    · exact refuse_quiet _ _
  | .new span type args => by
    unfold resolve
    refine (instantiable_fits h type span).bind fun x hx => ?_
    refine (resolveArgs_sound h hA args).bind fun as? has => ?_
    refine (allSome_args_sound has).bind fun as has => ?_
    exact (construct_sound h hx.1 hx.2 has span).bind fun v hv => Yields.pure hv
  | .unary span op operand => by
    by_cases hneg : ∃ s n, op = .neg ∧ operand = .int s n
    · obtain ⟨s, n, rfl, rfl⟩ := hneg
      rw [resolve]
      exact Yields.pure (literal_sound _)
    · rw [resolve]
      · refine (resolve_sound h hA operand).bind fun r hr => (demandValue_sound hr _).bind fun v hv => ?_
        exact (unary_sound hv.1 span op).bind fun v hv => Yields.pure hv
      · exact fun s n hop hoperand => hneg ⟨s, n, hop, hoperand⟩
  | .binary span op left right => by
    unfold resolve
    split
    · refine (((resolve_sound h hA left).bind fun r hr =>
        demandType_sound h hr .bool left.span).optional).bind fun l? hl => ?_
      refine (((resolve_sound h hA right).bind fun r hr =>
        demandType_sound h hr .bool right.span).optional).bind fun r? hr => ?_
      refine (Yields.ofOption hl).bind fun l hl => (Yields.ofOption hr).bind fun r hr => ?_
      refine Yields.pure ⟨⟨?_, trivial⟩, ?_⟩
      · split <;> exact ⟨hasType_bool (hl.1 trivial), hasType_bool (hr.1 trivial), rfl⟩
      · split
        · exact .both hl.2 hr.2
        · exact .either hl.2 hr.2
    · refine (((resolve_sound h hA left).bind fun r hr =>
        demandValue_sound hr left.span).optional).bind fun l? hl => ?_
      refine (((resolve_sound h hA right).bind fun r hr =>
        demandValue_sound hr right.span).optional).bind fun r? hr => ?_
      refine (Yields.ofOption hl).bind fun l hl => (Yields.ofOption hr).bind fun r hr => ?_
      exact (strict_sound h hl.1 hr.1 span op _ _).bind fun v hv => Yields.pure hv
  | .assign span op target value => by
    unfold resolve
    refine (resolve_sound h hA target).bind fun r hr => (demandPlace_sound hr _).bind fun x hx => ?_
    obtain ⟨p, t⟩ := x
    cases op with
    | none =>
      refine (resolve_sound h hA value).bind fun r hr => ?_
      refine (demandType_sound h hr t _).bind fun e he => Yields.pure ?_
      exact ⟨⟨⟨hx.1.1, he.1 hx.1.2⟩, hx.1.2⟩, .assign hx.2.1 hx.2.2 he.2⟩
    | some op =>
      refine (resolve_sound h hA value).bind fun r hr => (demandValue_sound hr _).bind fun v hv => ?_
      exact (compound_sound h hx.1 hx.2 hv.1 _ _ _).bind fun v hv => Yields.pure hv
  | .step span op leading target => by
    unfold resolve
    refine (resolve_sound h hA target).bind fun r hr => (demandPlace_sound hr _).bind fun x hx => ?_
    exact (stepped_sound hx.1 hx.2 span op leading).bind fun v hv => Yields.pure hv
  | .cond span test yes no => by
    unfold resolve
    refine (((resolve_sound h hA test).bind fun r hr =>
      demandType_sound h hr .bool test.span).optional).bind fun c? hc => ?_
    refine (((resolve_sound h hA yes).bind fun r hr =>
      demandValue_sound hr yes.span).optional).bind fun l? hl => ?_
    refine (((resolve_sound h hA no).bind fun r hr =>
      demandValue_sound hr no.span).optional).bind fun r? hr => ?_
    refine (Yields.ofOption hc).bind fun test htest => ?_
    refine (Yields.ofOption hl).bind fun l hl => (Yields.ofOption hr).bind fun r hr => ?_
    refine (conditional_sound h hl.1 hr.1 (hasType_bool (htest.1 trivial)) htest.2 _ _ _).bind
      fun v hv => ?_
    exact Yields.pure hv

theorem resolveArgs_sound (h : s₀.Fits c) (hA : s₀.Opens c A) : ∀ es : List Expr,
    Yields s₀.Quiet (resolveArgs es) fun as => ∀ a? ∈ as, ∀ a, a? = some a → a.Sound c A
  | [] => by
    unfold resolveArgs
    exact Yields.pure (by simp)
  | e :: es => by
    unfold resolveArgs
    refine Yields.bind (Yields.optional (Q := fun a : Arg => a.Sound c A) ?_) fun a? ha => ?_
    · refine (resolve_sound h hA e).bind fun r hr => (demandValue_sound hr e.span).bind fun v hv => ?_
      exact Yields.pure ⟨hv.1.1.1, hv.1.2⟩
    · refine (resolveArgs_sound h hA es).bind fun rest hrest => Yields.pure fun b? hb => ?_
      rcases List.mem_cons.mp hb with rfl | hb
      · exact ha
      · exact hrest b? hb

end

section Expressions

variable (h : s₀.Fits c) (hA : s₀.Opens c A)
include h hA

theorem expr_sound (e : Expr) : Yields s₀.Quiet (expr e) fun v => v.Sound c A :=
  (resolve_sound h hA e).bind fun _ hr => demand_sound hr e.span

theorem value_sound (e : Expr) :
    Yields s₀.Quiet (value e) fun v => v.Sound c A ∧ v.type ≠ .void :=
  (resolve_sound h hA e).bind fun _ hr => demandValue_sound hr e.span

theorem converted_sound (t : Ty) (e : Expr) :
    Yields s₀.Quiet (converted t e) fun e => e.Serves c A t :=
  (resolve_sound h hA e).bind fun _ hr => demandType_sound h hr t e.span

theorem condition_sound (e : Expr) :
    Yields s₀.Quiet (condition e) fun e => e.HasType c .bool ∧ e.WritesOnly A :=
  (converted_sound h hA .bool e).mono fun _ he => ⟨hasType_bool (he.1 trivial), he.2⟩

end Expressions

theorem expr_ok (h : s₀.Fits c) (e : Expr) : Yields s₀.Quiet (expr e) fun v => v.Ok c :=
  (expr_sound h (s₀.opens_all c) e).mono fun _ hv => hv.1

theorem value_ok (h : s₀.Fits c) (e : Expr) : Yields s₀.Quiet (value e) fun v => v.IsValue c :=
  (value_sound h (s₀.opens_all c) e).mono fun _ hv => ⟨hv.1.1, hv.2⟩

theorem converted_ok (h : s₀.Fits c) {t : Ty} (ht : c.image.Knows t) (e : Expr) :
    Yields s₀.Quiet (converted t e) fun e => e.Fits c t :=
  (converted_sound h (s₀.opens_all c) t e).mono fun _ he => he.1 ht

theorem condition_ok (h : s₀.Fits c) (e : Expr) :
    Yields s₀.Quiet (condition e) fun e => e.HasType c .bool :=
  (condition_sound h (s₀.opens_all c) e).mono fun _ he => he.1

end Bind

end Chunkwise
