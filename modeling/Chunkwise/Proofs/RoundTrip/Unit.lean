import Chunkwise.Parser.Stmt
import Chunkwise.Proofs.Parser.Sentence
import Chunkwise.Proofs.RoundTrip.Expr
import Mathlib.Data.List.Chain

/-!
The text of an expression is no declaration, since no two identifiers stand side by side in it, so a
chunk that consists of the text is read as one expression statement. Main statement: printing a tree
with the parentheses that it needs and reading the text gives the tree back, up to parentheses and
spans.
-/
namespace Chunkwise

open Grammar

/-- No two identifiers stand side by side. -/
def Apart (w : List TokenKind) : Prop := w.IsChain fun k k' => ¬(k.isIdent ∧ k'.isIdent)

/-- The text does not begin with an identifier. -/
def Unnamed (w : List TokenKind) : Prop := ∀ k ∈ w.head?, k.isIdent = false

variable {w v : List TokenKind} {k : TokenKind}

theorem Apart.append (hw : Apart w) (hv : Apart v) (h : Unnamed v) : Apart (w ++ v) := by
  refine List.isChain_append.mpr ⟨hw, hv, fun x _ y hy hboth => ?_⟩
  have hy' := h y hy
  simp [hy'] at hboth

theorem Apart.cons (hv : Apart v) (h : k.isIdent = false ∨ Unnamed v) : Apart (k :: v) := by
  refine List.isChain_cons.mpr ⟨fun y hy hboth => ?_, hv⟩
  rcases h with h | h
  · simp [h] at hboth
  · simp [h y hy] at hboth

theorem apart_singleton (k : TokenKind) : Apart [k] := List.isChain_singleton k

theorem apart_dotted (ids : List Ident) : Apart (dotted ids) ∧ Unnamed (dotted ids) := by
  induction ids with
  | nil => exact ⟨List.isChain_nil, by simp [Unnamed, dotted]⟩
  | cons id ids ih =>
    refine ⟨((ih.1.cons (.inr ih.2)).cons (.inl rfl)), ?_⟩
    simp [Unnamed, dotted, TokenKind.isIdent]

theorem TypeExpr.tokens_apart (t : TypeExpr) : Apart t.tokens := by
  cases t with
  | named q =>
    simp only [TypeExpr.tokens, QualifiedName.tokens]
    split
    · exact List.isChain_nil
    · exact (apart_dotted _).1.cons (.inr (apart_dotted _).2)
  | _ => exact apart_singleton _

namespace Expr

theorem argumentTokens_unnamed (es : List Expr) : Unnamed (argumentTokens es) := by
  cases es <;> simp [Unnamed, argumentTokens, TokenKind.isIdent]

theorem furtherTokens_unnamed (es : List Expr) : Unnamed (furtherTokens es) := by
  cases es <;> simp [Unnamed, furtherTokens, TokenKind.isIdent]

theorem Apart.signed {s : Symbol} (hw : Apart w) (hv : Apart v) : Apart (w ++ .symbol s :: v) :=
  hw.append (hv.cons (.inl rfl)) (by simp [Unnamed, TokenKind.isIdent])

mutual

theorem tokens_apart : ∀ e : Expr, Apart e.tokens
  | .int .. | .double .. | .str .. | .bool .. | .null .. | .thisRef .. | .name .. => by
    simp only [tokens]
    exact apart_singleton _
  | .member _ e id => by
    simp only [tokens]
    exact Apart.signed (tokens_apart e) (apart_singleton _)
  | .call _ e args => by
    simp only [tokens]
    exact (tokens_apart e).append (argumentTokens_apart args) (argumentTokens_unnamed args)
  | .new _ t args => by
    simp only [tokens]
    exact (t.type.tokens_apart.append (argumentTokens_apart args) (argumentTokens_unnamed args)).cons
      (.inl rfl)
  | .unary _ _ e | .step _ _ true e => by
    simp only [tokens]
    exact (tokens_apart e).cons (.inl rfl)
  | .binary _ _ a b | .assign _ _ a b => by
    simp only [tokens]
    exact Apart.signed (tokens_apart a) (tokens_apart b)
  | .step _ _ false e => by
    simp only [tokens]
    exact Apart.signed (tokens_apart e) List.isChain_nil
  | .cond _ test yes no => by
    simp only [tokens]
    exact Apart.signed (tokens_apart test) (Apart.signed (tokens_apart yes) (tokens_apart no))
  | .paren _ e => by
    simp only [tokens]
    exact (Apart.signed (tokens_apart e) List.isChain_nil).cons (.inl rfl)

theorem argumentTokens_apart : ∀ es : List Expr, Apart (argumentTokens es)
  | [] => by
    simp only [argumentTokens]
    exact (apart_singleton _).cons (.inl rfl)
  | e :: es => by
    simp only [argumentTokens]
    exact ((tokens_apart e).append (furtherTokens_apart es) (furtherTokens_unnamed es)).cons (.inl rfl)

theorem furtherTokens_apart : ∀ es : List Expr, Apart (furtherTokens es)
  | [] => by
    simp only [furtherTokens]
    exact apart_singleton _
  | e :: es => by
    simp only [furtherTokens]
    exact ((tokens_apart e).append (furtherTokens_apart es) (furtherTokens_unnamed es)).cons (.inl rfl)

end

end Expr

namespace Parser

open Chunkwise.Expr

variable {e : Expr}

theorem nameFollows_eq_false {name : String} (h : Apart (.ident name :: w)) : nameFollows w = false := by
  fun_induction nameFollows w generalizing name with
  | case1 part rest ih => exact ih h.tail.tail
  | case2 => simp [Apart, TokenKind.isIdent] at h
  | case3 => rfl

/-- The text of an expression does not begin as a declaration does. -/
theorem startsLocal_accepts {α : Type} {f : Bool → Parser α} {R : α → Prop}
    (h : Accepts (f false) e.tokens [.endOfInput] R) :
    Accepts (startsLocal >>= f) e.tokens [.endOfInput] R := by
  obtain ⟨k, v, hv, hk⟩ := tokens_begin e
  have happart : Apart (e.tokens ++ [TokenKind.endOfInput]) :=
    (tokens_apart e).append (apart_singleton _) (by simp [Unnamed, TokenKind.isIdent])
  rw [hv] at happart h ⊢
  have hlocal : Accepts startsLocal [] (k :: v ++ [TokenKind.endOfInput]) (· = false) := by
    refine Accepts.see false (fun c hc => ?_) (Accepts.see (f := Pure.pure) false (fun c hc => ?_)
      (Accepts.pure rfl))
    · have hcurrent : c.current.kind = k := Accepts.current_of_rest hc
      rw [hcurrent]
      cases k with
      | keyword word => cases word <;> first | rfl | cases hk
      | _ => rfl
    · have hcurrent : c.current.kind = k := Accepts.current_of_rest hc
      have hlater : c.later.map Token.kind = v ++ [TokenKind.endOfInput] := (List.cons.inj hc).2
      rw [hcurrent, hlater]
      cases k with
      | ident name => exact nameFollows_eq_false happart
      | keyword word => cases word <;> first | rfl | cases hk
      | _ => rfl
  exact hlocal.bind (w := []) fun b hb => hb ▸ h

theorem statement_accepts (h : Readable e) (hdepth : e.depth < maxNesting) :
    Accepts (statement true) e.tokens [.endOfInput] fun s =>
      ∃ span a, s = .expr span a ∧ a.bare = e.bare := by
  have hstmt : Accepts (expressionStmt true) e.tokens [.endOfInput] fun s =>
      ∃ span a, s = .expr span a ∧ a.bare = e.bare := by
    have hread : Accepts expression e.tokens [.endOfInput] (·.bare = e.bare) :=
      h.nested hdepth (stops_cons (by simp [joinRank]))
    refine hread.andThen fun a ha => Accepts.eat_other (by simp) ?_
    refine Accepts.see true (fun c hc => ?_) (Accepts.span fun s => Accepts.pure ⟨s, a, rfl, ha⟩)
    have hcurrent : c.current.kind = .endOfInput := Accepts.current_of_rest hc
    simp [Cursor.atEnd, hcurrent]
  obtain ⟨k, v, hv, hk⟩ := tokens_begin e
  have hlocal := startsLocal_accepts (f := fun found => if found then declareStmt else
    expressionStmt true) hstmt
  refine Accepts.look fun start => ?_
  rw [hv] at hlocal ⊢
  refine Accepts.peek ?_
  split
  case h_11 => exact hlocal
  all_goals cases hk

theorem statementRound_end {c : Cursor} (hc : c.current.kind = .endOfInput) (stmts : List Stmt) :
    statementRound stmts c = (some (.inr stmts), c) := by
  have hend : c.atEnd = true := by simp [Cursor.atEnd, hc]
  simp only [statementRound, atEnd, Attempt.gets, bind, Attempt.bind, hend, if_true]
  rfl

/-- A statement that is read without issues is one round. -/
theorem statementRound_statement {c c' : Cursor} {s : Stmt} (hc : c.current.kind ≠ .endOfInput)
    (hissues : c.issues = Log.empty) (hrun : statement true c = (some s, c'))
    (hmoved : c'.remaining ≠ c.remaining) (stmts : List Stmt) :
    statementRound stmts c = (some (.inl (stmts ++ [s])), c') := by
  have hend : c.atEnd = false := by simp [Cursor.atEnd, hc]
  have hfull : c.issues.isFull = false := by
    rw [hissues]
    decide
  simp only [statementRound, atEnd, tooManyErrors, Attempt.gets, Attempt.optional, ensureProgress,
    Attempt.modify, bind, Attempt.bind, hend, hfull, Bool.false_eq_true, if_false, hrun, if_neg hmoved]
  rfl

theorem statementUnit_run {c : Cursor} (h : Readable e) (hdepth : e.depth < maxNesting)
    (hc : c.rest = e.tokens ++ [TokenKind.endOfInput]) (hissues : c.issues = Log.empty) :
    ∃ unit c', statementUnit c = (some unit, c') ∧ c'.issues = Log.empty ∧
      ∃ span a, unit.stmts = [.expr span a] ∧ a.bare = e.bare := by
  obtain ⟨_, c', hrun, hrest, hissues', span, a, rfl, ha⟩ :=
    statement_accepts h hdepth c hc (by simp)
  obtain ⟨k, v, hv, hk⟩ := tokens_begin e
  have hcurrent : c.current.kind ≠ .endOfInput := by
    rw [hv] at hc
    rw [Accepts.current_of_rest hc]
    rintro rfl
    cases hk
  have hremaining : c'.remaining = 1 ∧ c.remaining = v.length + 2 := by
    rw [Cursor.remaining_eq, Cursor.remaining_eq, hrest, hc, hv]
    simp
  have hfirst := statementRound_statement hcurrent hissues hrun (by omega) []
  have hlast := statementRound_end (Accepts.current_of_rest hrest) [.expr span a]
  have hloop : repeatFrom statementRound [] c = (some [.expr span a], c') := by
    rw [repeatFrom, Enters.loop_run (by omega) hfirst, Sum.elim_inl, List.nil_append,
      Enters.loop_run (by omega) hlast, Sum.elim_inr]
  refine ⟨⟨[.expr span a], c.current.span.merge c'.previousSpan⟩, c', ?_, by rw [hissues', hissues],
    span, a, rfl, ha⟩
  have hunit : statementUnit c = Attempt.bind (repeatFrom statementRound [])
      (fun stmts => do return ⟨stmts, ← spanFrom c.current.span⟩) c := rfl
  rw [hunit, Attempt.bind, hloop]
  rfl

theorem ofTokens_ended {tokens : List Token} (h : tokens.map Token.kind = w ++ [TokenKind.endOfInput]) :
    (Cursor.ofTokens tokens).rest = w ++ [TokenKind.endOfInput] := by
  have hlast : tokens.getLast?.map Token.kind = some TokenKind.endOfInput := by
    rw [← List.getLast?_map, h, List.getLast?_concat]
  obtain ⟨last, hlast, hend⟩ := Option.map_eq_some_iff.mp hlast
  cases tokens with
  | nil => cases hlast
  | cons t ts => simpa [Cursor.ofTokens, hlast, hend, Cursor.rest] using h

/-- A printed expression is read back as one statement, and nothing but its parentheses and spans may
differ. -/
theorem printed_expression_read (e : Expr) (hspelled : e.Spelled)
    (hdepth : e.parenthesize.depth < maxNesting) (tokens : List Token)
    (htokens : tokens.map Token.kind = e.parenthesize.tokens ++ [.endOfInput]) :
    ∃ unit c, statementUnit (Cursor.ofTokens tokens) = (some unit, c) ∧ c.issues = Log.empty ∧
      ∃ span a, unit.stmts = [.expr span a] ∧ a.bare = e.bare := by
  have hread := statementUnit_run (readable (fits_parenthesize hspelled)) hdepth
    (ofTokens_ended htokens) (Cursor.ofTokens_issues tokens)
  rwa [bare_parenthesize] at hread

def nameOf (id : String) : Expr := .name default id

/-- A tree that needs parentheses around a target, an operand of a prefix operator and the right
operands of `-` and `??`. -/
def mixedTree : Expr :=
  .assign default (some .add) (.cond default (nameOf "a") (nameOf "b") (nameOf "c"))
    (.binary default .coalesce
      (.binary default .sub (.unary default .neg (.binary default .mul (nameOf "x") (nameOf "y")))
        (.binary default .sub (nameOf "z")
          (.step default .increment false (.member default (.new default
            ⟨.named ⟨[⟨"N", default⟩, ⟨"T", default⟩], default⟩, default⟩ [nameOf "u", nameOf "v"])
            ⟨"f", default⟩))))
      (.assign default none (nameOf "p") (nameOf "q")))

/-- The text of it: `(a ? b : c) += -(x * y) - (z - new N.T(u, v).f++) ?? (p = q)`. -/
def mixedText : List TokenKind :=
  [.symbol .openParen, .ident "a", .symbol .question, .ident "b", .symbol .colon, .ident "c",
    .symbol .closeParen, .symbol .plusAssign, .symbol .minus, .symbol .openParen, .ident "x",
    .symbol .star, .ident "y", .symbol .closeParen, .symbol .minus, .symbol .openParen, .ident "z",
    .symbol .minus, .keyword .newKw, .ident "N", .symbol .dot, .ident "T", .symbol .openParen,
    .ident "u", .symbol .comma, .ident "v", .symbol .closeParen, .symbol .dot, .ident "f",
    .symbol .plusPlus, .symbol .closeParen, .symbol .coalesce, .symbol .openParen, .ident "p",
    .symbol .assign, .ident "q", .symbol .closeParen, .endOfInput]

theorem printed_expression_read_mixed :
    mixedTree.Spelled ∧ mixedTree.parenthesize.depth < maxNesting ∧
      (tokensOf mixedText).map Token.kind = mixedTree.parenthesize.tokens ++ [.endOfInput] ∧
      ∃ unit c, statementUnit (Cursor.ofTokens (tokensOf mixedText)) = (some unit, c) ∧
        c.issues = Log.empty ∧ ∃ span a, unit.stmts = [.expr span a] ∧ a.bare = mixedTree.bare := by
  have hspelled : mixedTree.Spelled := by
    simp [mixedTree, nameOf, Spelled, SpelledAll, TypeExpr.Spelled]
  have hdepth : mixedTree.parenthesize.depth < maxNesting := by decide
  have htokens : (tokensOf mixedText).map Token.kind = mixedTree.parenthesize.tokens ++ [.endOfInput] := rfl
  exact ⟨hspelled, hdepth, htokens,
    printed_expression_read mixedTree hspelled hdepth (tokensOf mixedText) htokens⟩

end Parser

end Chunkwise
