import Chunkwise.Proofs.Binder.Compound
import Chunkwise.Proofs.Machine.Conduct
import Mathlib.Data.Int.ModEq

/-!
A tree of integer literals, signs, parentheses and the operators `+`, `-` and `*` is accepted
wherever it stands, and it computes in two's complement: its value is the one 64-bit integer that is
congruent to the value of the tree in exact arithmetic. Its type depends on the literals alone, where
a minus sign right before a literal belongs to the literal.
-/
namespace Chunkwise

open Attempt

namespace Expr

/-- The expression is an integer tree, and `z` is its value in exact arithmetic. -/
inductive Exact : Expr → Int → Prop where
  | int (span : Span) (n : Int64) : Exact (.int span n) n.toInt
  | paren {e : Expr} {z : Int} (span : Span) : Exact e z → Exact (.paren span e) z
  | plus {e : Expr} {z : Int} (span : Span) : Exact e z → Exact (.unary span .plus e) z
  | neg {e : Expr} {z : Int} (span : Span) : Exact e z → Exact (.unary span .neg e) (-z)
  | add {l r : Expr} {y z : Int} (span : Span) : Exact l y → Exact r z →
      Exact (.binary span .add l r) (y + z)
  | sub {l r : Expr} {y z : Int} (span : Span) : Exact l y → Exact r z →
      Exact (.binary span .sub l r) (y - z)
  | mul {l r : Expr} {y z : Int} (span : Span) : Exact l y → Exact r z →
      Exact (.binary span .mul l r) (y * z)

/-- The literals of an integer tree, each with the minus sign right before it. -/
def signedLiterals : Expr → List Int64
  | .int _ n => [n]
  | .unary _ .neg (.int _ n) => [-n]
  | .unary _ _ e | .paren _ e => e.signedLiterals
  | .binary _ _ l r => l.signedLiterals ++ r.signedLiterals
  | _ => []

end Expr

/-- The integer fits in 32 bits with a sign. -/
def IsShort (n : Int64) : Prop := -2 ^ 31 ≤ n.toInt ∧ n.toInt < 2 ^ 31

instance (n : Int64) : Decidable (IsShort n) := inferInstanceAs (Decidable (_ ∧ _))

theorem ofInt_modEq (z : Int) : (Int64.ofInt z).toInt ≡ z [ZMOD 2 ^ 64] := by
  rw [Int64.toInt_ofInt]
  exact Int.bmod_emod

theorem eq_ofInt_of_modEq {n : Int64} {z : Int} (h : n.toInt ≡ z [ZMOD 2 ^ 64]) : n = Int64.ofInt z := by
  symm
  rw [Int64.ofInt_eq_iff_bmod_eq_toInt]
  calc z.bmod (2 ^ 64) = (z % (2 ^ 64 : Nat)).bmod (2 ^ 64) := (Int.emod_bmod z _).symm
    _ = (n.toInt % (2 ^ 64 : Nat)).bmod (2 ^ 64) := congrArg (Int.bmod · (2 ^ 64)) h.symm
    _ = n.toInt.bmod (2 ^ 64) := Int.emod_bmod n.toInt _
    _ = n.toInt := n.toInt_bmod

namespace Ty

/-- The common type of integer literals: long unless all of them are short. -/
def ofLiterals (ns : List Int64) : Ty := if ns.all (IsShort ·) then .int else .long

theorem ofLiteral_eq (n : Int64) : ofLiteral n = ofLiterals [n] := by
  have hshort : (-2147483648 ≤ n.toInt ∧ n.toInt ≤ 2147483647) ↔ IsShort n := by
    simp only [IsShort]
    omega
  simp [ofLiteral, ofLiterals, hshort]

theorem ofLiterals_cases (ns : List Int64) : ofLiterals ns = .int ∨ ofLiterals ns = .long := by
  unfold ofLiterals
  split <;> simp

theorem ofLiterals_ne_void (ns : List Int64) : ofLiterals ns ≠ .void := by
  rcases ofLiterals_cases ns with h | h <;> simp [h]

theorem ofLiterals_append (ms ns : List Int64) :
    ofLiterals (ms ++ ns) = (ofLiterals ms).wider (ofLiterals ns) := by
  simp only [ofLiterals, List.all_append]
  cases ms.all (IsShort ·) <;> cases ns.all (IsShort ·) <;> rfl

theorem isNumeric_ofLiterals (ns : List Int64) : (ofLiterals ns).isNumeric = true := by
  rcases ofLiterals_cases ns with h | h <;> rw [h] <;> rfl

theorem numKind_ofLiterals (ns : List Int64) : (ofLiterals ns).numKind = .int := by
  rcases ofLiterals_cases ns with h | h <;> rw [h] <;> rfl

end Ty

namespace Bind

variable {s : BindState}

/-- An integer becomes the wider of two integer types as it is. -/
theorem coerce_ofLiterals (e : BoundExpr) (ms ns : List Int64) (span : Span) :
    coerce e (Ty.ofLiterals ms) ((Ty.ofLiterals ms).wider (Ty.ofLiterals ns)) span s = (some e, s) ∧
      coerce e (Ty.ofLiterals ms) ((Ty.ofLiterals ns).wider (Ty.ofLiterals ms)) span s =
        (some e, s) := by
  rcases Ty.ofLiterals_cases ms with hm | hm <;> rcases Ty.ofLiterals_cases ns with hn | hn <;>
    rw [hm, hn] <;> exact ⟨rfl, rfl⟩

/-- An operator on two integers is an operation on integers of the wider type. -/
theorem calculated_ofLiterals (span : Span) (op : ArithOp) (l r : BoundExpr) (ms ns : List Int64)
    (ls rs : Span) :
    calculated span op ⟨l, Ty.ofLiterals ms⟩ ⟨r, Ty.ofLiterals ns⟩ ls rs s =
      (some ⟨.binary (.arith op .int) l r, Ty.ofLiterals (ms ++ ns)⟩, s) := by
  have htext : ¬(op = .add ∧ (Ty.ofLiterals ms = .string ∨ Ty.ofLiterals ns = .string)) := by
    rcases Ty.ofLiterals_cases ms with hm | hm <;> rcases Ty.ofLiterals_cases ns with hn | hn <;>
      simp [hm, hn]
  have hnumeric : ((Ty.ofLiterals ms).isNumeric && (Ty.ofLiterals ns).isNumeric) = true := by
    simp [Ty.isNumeric_ofLiterals]
  have hkind : ((Ty.ofLiterals ms).wider (Ty.ofLiterals ns)).numKind = .int := by
    rw [← Ty.ofLiterals_append]
    exact Ty.numKind_ofLiterals _
  have hwidened : widened ⟨l, Ty.ofLiterals ms⟩ ⟨r, Ty.ofLiterals ns⟩ ls rs s = (some (l, r), s) := by
    have hl := (coerce_ofLiterals (s := s) l ms ns ls).1
    have hr := (coerce_ofLiterals (s := s) r ns ms rs).2
    exact (bind_eq_of_run hl).trans (bind_eq_of_run hr)
  unfold calculated
  rw [if_neg htext, if_pos hnumeric, hkind, Ty.ofLiterals_append]
  exact bind_eq_of_run hwidened

variable [NameLookup] {e l r : Expr} {z : Int}

theorem value_of_resolve {b : BoundExpr} {t : Ty} (h : resolve e s = (some (.value b t), s))
    (ht : t ≠ .void) : value e s = (some ⟨b, t⟩, s) :=
  (bind_eq_of_run h).trans (demandValue_of_demand rfl ht)

/-- An integer tree is accepted without a trace as a value of the type of its literals, and it is
evaluated without a trace to its exact value wrapped to 64 bits. -/
structure Wraps (e : Expr) (z : Int) (b : BoundExpr) : Prop where
  binds : ∀ s, resolve e s = (some (.value b (Ty.ofLiterals e.signedLiterals)), s)
  evaluates : ∀ env calls st, Machine.eval env calls b st = (.ok (.int (Int64.ofInt z)), st)

theorem Wraps.value {b : BoundExpr} (h : Wraps e z b) (s : BindState) :
    Bind.value e s = (some ⟨b, Ty.ofLiterals e.signedLiterals⟩, s) :=
  value_of_resolve (h.binds s) (Ty.ofLiterals_ne_void _)

theorem wraps_literal (span : Span) (n : Int64) : Wraps (.int span n) n.toInt (.const (.int n)) where
  binds s := by
    rw [resolve, Expr.signedLiterals, ← Ty.ofLiteral_eq]
    rfl
  evaluates env calls st := by
    rw [Machine.eval, Int64.ofInt_toInt]
    rfl

theorem wraps_negLiteral (outer inner : Span) (n : Int64) :
    Wraps (.unary outer .neg (.int inner n)) (-n.toInt) (.const (.int (-n))) where
  binds s := by
    rw [resolve, Expr.signedLiterals, ← Ty.ofLiteral_eq]
    rfl
  evaluates env calls st := by
    rw [Machine.eval, Int64.ofInt_neg, Int64.ofInt_toInt]
    rfl

/-- A sign is an operation on the value, except that a minus sign before a literal is part of it. -/
theorem Wraps.sign {op : UnaryOp} {b c : BoundExpr} (span : Span) (h : Wraps e z b)
    (he : op = .neg → ∀ inner n, e ≠ .int inner n)
    (hop : ∀ s, unary span op ⟨b, Ty.ofLiterals e.signedLiterals⟩ s =
      (some ⟨c, Ty.ofLiterals e.signedLiterals⟩, s)) (s : BindState) :
    resolve (.unary span op e) s =
      (some (.value c (Ty.ofLiterals (Expr.unary span op e).signedLiterals)), s) := by
  have hliterals : (Expr.unary span op e).signedLiterals = e.signedLiterals := by
    rw [Expr.signedLiterals]
    exact fun inner n hneg h => he hneg inner n h
  have hvalue : demandValue e.span (.value b (Ty.ofLiterals e.signedLiterals)) s =
      (some ⟨b, Ty.ofLiterals e.signedLiterals⟩, s) :=
    demandValue_of_demand rfl (Ty.ofLiterals_ne_void _)
  rw [hliterals, resolve]
  · exact (bind_eq_of_run (h.binds s)).trans ((bind_eq_of_run hvalue).trans (bind_eq_of_run (hop s)))
  · exact fun inner n hneg h => he hneg inner n h

theorem Wraps.neg {b : BoundExpr} (span : Span) (he : ∀ inner n, e ≠ .int inner n)
    (h : Wraps e z b) : Wraps (.unary span .neg e) (-z) (.neg .int b) where
  binds := by
    apply h.sign span (fun _ => he)
    intro s
    simp only [unary, Ty.isNumeric_ofLiterals, if_true, Ty.numKind_ofLiterals]
    rfl
  evaluates env calls st := by
    rw [Machine.eval, Int64.ofInt_neg]
    exact Run.bind_ok (h.evaluates env calls st)

theorem Wraps.plus {b : BoundExpr} (span : Span) (h : Wraps e z b) :
    Wraps (.unary span .plus e) z b where
  binds := by
    have hplus : UnaryOp.plus = .neg → ∀ inner n, e ≠ .int inner n := fun h => by cases h
    apply h.sign span hplus
    intro s
    simp only [unary, Ty.isNumeric_ofLiterals, if_true]
    rfl
  evaluates := h.evaluates

theorem Wraps.paren {b : BoundExpr} (span : Span) (h : Wraps e z b) :
    Wraps (.paren span e) z b where
  binds s := by
    rw [resolve, Expr.signedLiterals]
    exact h.binds s
  evaluates := h.evaluates

theorem Wraps.binary {op : ArithOp} {y z x : Int} {b c : BoundExpr} (span : Span)
    (hl : Wraps l y b) (hr : Wraps r z c)
    (hop : Machine.intArith op (Int64.ofInt y) (Int64.ofInt z) = .ok (Int64.ofInt x)) :
    Wraps (.binary span op.toBinary l r) x (.binary (.arith op .int) b c) where
  binds s := by
    have hcalculated := calculated_ofLiterals (s := s) span op b c l.signedLiterals r.signedLiterals
      l.span r.span
    have hstrict : strict span op.toBinary ⟨b, Ty.ofLiterals l.signedLiterals⟩
        ⟨c, Ty.ofLiterals r.signedLiterals⟩ l.span r.span s = (some ⟨.binary (.arith op .int) b c,
          Ty.ofLiterals (l.signedLiterals ++ r.signedLiterals)⟩, s) := by
      cases op <;> exact hcalculated
    rw [Expr.signedLiterals]
    exact resolve_binary_of_runs (hl.value s) (hr.value s) hstrict
  evaluates env calls st := by
    have happly : Machine.apply env.image (.arith op .int) (.int (Int64.ofInt y))
        (.int (Int64.ofInt z)) = .ok (.int (Int64.ofInt x)) := by
      simp only [Machine.apply, Value.int?, hop]
      rfl
    have hright : (Machine.eval env calls c >>= fun v => Run.ofExcept
        (Machine.apply env.image (.arith op .int) (.int (Int64.ofInt y)) v)) st =
          (.ok (.int (Int64.ofInt x)), st) := by
      rw [Run.bind_ok (hr.evaluates env calls st), happly]
      rfl
    rw [Machine.eval]
    exact (Run.bind_ok (hl.evaluates env calls st)).trans hright

theorem exists_wraps (h : e.Exact z) : ∃ b, Wraps e z b := by
  induction h with
  | int span n => exact ⟨_, wraps_literal span n⟩
  | paren span _ ih =>
    obtain ⟨b, hb⟩ := ih
    exact ⟨b, hb.paren span⟩
  | plus span _ ih =>
    obtain ⟨b, hb⟩ := ih
    exact ⟨b, hb.plus span⟩
  | @neg e z span he ih =>
    cases he with
    | int inner n => exact ⟨_, wraps_negLiteral span inner n⟩
    | _ =>
      obtain ⟨b, hb⟩ := ih
      exact ⟨_, hb.neg span nofun⟩
  | @add l r y z span _ _ ihl ihr =>
    obtain ⟨b, hb⟩ := ihl
    obtain ⟨c, hc⟩ := ihr
    have hadd : Machine.intArith .add (Int64.ofInt y) (Int64.ofInt z) = .ok (Int64.ofInt (y + z)) := by
      rw [Machine.intArith, Int64.ofInt_add]
    exact ⟨_, hb.binary span hc hadd⟩
  | @sub l r y z span _ _ ihl ihr =>
    obtain ⟨b, hb⟩ := ihl
    obtain ⟨c, hc⟩ := ihr
    have hsub : Machine.intArith .sub (Int64.ofInt y) (Int64.ofInt z) = .ok (Int64.ofInt (y - z)) := by
      rw [Machine.intArith, Int64.ofInt_sub]
    exact ⟨_, hb.binary span hc hsub⟩
  | @mul l r y z span _ _ ihl ihr =>
    obtain ⟨b, hb⟩ := ihl
    obtain ⟨c, hc⟩ := ihr
    have hmul : Machine.intArith .mul (Int64.ofInt y) (Int64.ofInt z) = .ok (Int64.ofInt (y * z)) := by
      rw [Machine.intArith, Int64.ofInt_mul]
    exact ⟨_, hb.binary span hc hmul⟩

/-- In every state of the binder an integer tree is accepted without a trace, as an operand, as an
expression and as a value alike. It has type long when one of its literals is not short, and type
int otherwise. Evaluated anywhere, it ends without a fault and without a trace in the one 64-bit
integer that is congruent to its exact value. -/
theorem integers_wrap (h : e.Exact z) : ∃ v : Typed,
    (∀ s, resolve e s = (some (ofTyped v), s) ∧ expr e s = (some v, s) ∧ value e s = (some v, s)) ∧
    (v.type = .int ↔ ∀ n ∈ e.signedLiterals, IsShort n) ∧
    (v.type = .long ↔ ∃ n ∈ e.signedLiterals, ¬IsShort n) ∧
    ∃ n : Int64, (n.toInt ≡ z [ZMOD 2 ^ 64] ∧ ∀ m : Int64, m.toInt ≡ z [ZMOD 2 ^ 64] → m = n) ∧
      ∀ env calls st, Machine.eval env calls v.expr st = (.ok (.int n), st) := by
  obtain ⟨b, hb⟩ := exists_wraps h
  have hbinds : ∀ s, resolve e s = (some (ofTyped ⟨b, Ty.ofLiterals e.signedLiterals⟩), s) ∧
      expr e s = (some ⟨b, Ty.ofLiterals e.signedLiterals⟩, s) ∧
        Bind.value e s = (some ⟨b, Ty.ofLiterals e.signedLiterals⟩, s) := by
    intro s
    have hexpr : expr e s = (some ⟨b, Ty.ofLiterals e.signedLiterals⟩, s) :=
      bind_eq_of_run (hb.binds s)
    exact ⟨hb.binds s, hexpr, hb.value s⟩
  have hint : Ty.ofLiterals e.signedLiterals = .int ↔ ∀ n ∈ e.signedLiterals, IsShort n := by
    simp [Ty.ofLiterals]
  have hlong : Ty.ofLiterals e.signedLiterals = .long ↔ ∃ n ∈ e.signedLiterals, ¬IsShort n := by
    simp [Ty.ofLiterals]
  exact ⟨_, hbinds, hint, hlong, _, ⟨ofInt_modEq z, fun m hm => eq_ofInt_of_modEq hm⟩, hb.evaluates⟩

/-- The tree of `-(2147483648 * 8589934592) + -2147483648`, all at one place. -/
def overflowing (here : Span) : Expr :=
  let product : Expr := .binary here .mul (.int here 2147483648) (.int here 8589934592)
  .binary here .add (.unary here .neg (.paren here product)) (.unary here .neg (.int here 2147483648))

omit [NameLookup] in
theorem overflowing_exact (here : Span) :
    (overflowing here).Exact (-(2147483648 * 8589934592) + -2147483648) := by
  have hproduct : Expr.Exact (.binary here .mul (.int here 2147483648) (.int here 8589934592))
      (2147483648 * 8589934592) := .mul _ (.int _ _) (.int _ _)
  exact .add _ (.neg _ (.paren _ hproduct)) (.neg _ (.int _ _))

omit [NameLookup] in
/-- The product leaves the 64-bit range, and its negation with it: what is left of the sum is the last
term. Two literals are not short, so the type is long. -/
theorem integers_wrap_overflow : ∃ v : Typed, v.type = .long ∧
    (∀ s, @expr cachedLookup (overflowing (.point 1 1)) s = (some v, s)) ∧
    ∀ env calls st, Machine.eval env calls v.expr st = (.ok (.int (-2147483648)), st) := by
  obtain ⟨v, hbinds, -, hlong, n, ⟨-, hunique⟩, heval⟩ :=
    @integers_wrap cachedLookup _ _ (overflowing_exact (.point 1 1))
  have hn : (-2147483648 : Int64) = n := hunique _ (by decide)
  exact ⟨v, hlong.mpr ⟨2147483648, by decide, by decide⟩, fun s => (hbinds s).2.1, hn ▸ heval⟩

end Bind

end Chunkwise
