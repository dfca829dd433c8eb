import Chunkwise.Proofs.Cut.Stmt
import Chunkwise.Proofs.Extent.Expr

/-!
A statement stands for the tokens it was read from. Statements that cannot be read leave gaps in the row
of a block or of a chunk, and recovery never goes back, so the statements around a gap stay in order.
-/
namespace Chunkwise.Parser

open Script

variable {T : Script} {i j k : Nat} {α : Type}

theorem condition_lists : Lists T condition fun e => [e.spanTree] := by
  intro i
  apply Goes.expect (by simp)
  apply (expression_builds _).bind
  intro test j hij htest
  apply Goes.expect (by simp)
  have hrow : T.Row i (j + 1) [test.spanTree] :=
    (htest.row.after (Nat.le_succ i)).wait (Nat.le_succ j)
  exact Goes.pure fun _ => ⟨by omega, hrow⟩

theorem expressionRound_keeps (i : Nat) : Keeps T True expressionRound
    (fun es j => i < j ∧ T.Row i j (es.map Expr.spanTree))
    fun es j => i < j ∧ T.Row i j (es.map Expr.spanTree) := by
  intro es j
  apply Goes.eatThen (by simp)
  · intro _
    apply (expression_builds _).bind
    intro next k hk hnext
    exact Goes.pure fun _ => ⟨hk, fun ⟨_, hes⟩ => ⟨by omega, (hes.wait (Nat.le_succ j)).push hnext⟩⟩
  · exact Goes.pure fun _ => id

theorem expressionList_lists : Lists T expressionList (·.map Expr.spanTree) := by
  intro i
  apply (expression_builds i).bind
  intro first j _ hfirst
  exact (expressionRound_keeps i).repeatFrom fun _ => ⟨hfirst.lt, hfirst.row⟩

theorem expressionUnless_goes (s : Symbol) : Goes T True i (expressionUnless s) fun e? j =>
    T.Row i j (e?.toList.map Expr.spanTree) := by
  apply Goes.checkThen
  · exact fun _ => Goes.pure fun _ => Row.nil (Nat.le_refl i)
  · intro _
    apply (expression_builds i).bind
    exact fun e j _ he => Goes.pure fun _ => he.row

theorem initializer_goes : Goes T True i initializer fun e? j =>
    T.Row i j (e?.toList.map Expr.spanTree) := by
  apply Goes.eatThen (by simp)
  · intro _
    apply (expression_builds _).bind
    exact fun e j _ he => Goes.pure fun _ => he.row.after (Nat.le_succ i)
  · exact Goes.pure fun _ => Row.nil (Nat.le_refl i)

/-- A name and the value after it, up to the token passed last. -/
theorem named_stands {name : Ident} {value : Option Expr} (hname : T.Stands i j name.spanTree)
    (hvalue : T.Row j k (value.toList.map Expr.spanTree)) (hk : k ≤ T.body.length) :
    T.Stands i k (.node (name.span.merge (T.spanAt (k - 1)))
      (name.spanTree :: value.toList.map Expr.spanTree)) := by
  have hlt := hname.lt
  have hle := hvalue.le
  exact (Row.cons hname hvalue).closed hname.spans hle (by omega) hk

/-- Before the first name there is nothing in the row, and every round passes a name. -/
theorem declaratorRound_keeps (i : Nat) : Keeps T True declaratorRound
    (fun ds j => T.Row i j (ds.map Declarator.spanTree))
    fun ds j => i < j ∧ T.Row i j (ds.map Declarator.spanTree) := by
  intro ds j
  apply (identifier_builds j).bind
  intro name k hjk hname
  apply initializer_goes.bind
  intro value m hkm hvalue
  apply Goes.spanFrom
  have hlt := hname.lt
  have hmore : m ≤ T.body.length → T.Row i j (ds.map Declarator.spanTree) → i < m ∧ T.Row i m
      ((ds ++ [Declarator.mk name value (name.span.merge (T.spanAt (m - 1)))]).map
        Declarator.spanTree) := by
    intro hlen hds
    have hle := hds.le
    exact ⟨by omega, hds.push (named_stands hname hvalue hlen)⟩
  apply Goes.eatThen (by simp)
  · intro _
    apply Goes.pure
    exact fun hlen => ⟨by omega, fun hds => (hmore (by omega) hds).2.wait (Nat.le_succ m)⟩
  · exact Goes.pure hmore

theorem declarators_lists : Lists T declarators (·.map Declarator.spanTree) :=
  fun i => (declaratorRound_keeps i).repeatFrom fun _ => Row.nil (Nat.le_refl i)

theorem localDecl_builds : Builds T localDecl LocalDecl.spanTree := by
  intro i
  apply Goes.span
  apply Goes.eatAny (by simp)
  intro isConst j hij
  apply (typeRef_builds j).bind
  intro type k hjk htype
  apply (declarators_lists k).bind
  intro names m hkm ⟨hlt, hnames⟩
  apply Goes.spanFrom
  have hrow : T.Row i m (type.spanTree :: names.map Declarator.spanTree) :=
    (htype.row.after hij).append hnames
  exact Goes.pure fun hlen => hrow.enclosed (by omega) hlen

theorem startsLocal_goes : Goes T False i startsLocal fun _ j => j = i := by
  apply Goes.checkThen
  · exact fun _ => Goes.pure fun _ => rfl
  · exact fun _ c hc => .yields (Nat.le_refl i) hc rfl

theorem resume_goes (hgoes : T.kindAt i ≠ .endOfInput) (hij : i ≤ j) (as : List α) :
    Goes T False j (resume (T.spanAt i) as) fun r k => r = .inl as ∧ i < k := by
  apply Goes.synchronize
  intro k hjk
  apply Goes.span
  apply Goes.atEnd
  by_cases hstuck : k = i
  · subst hstuck
    have hforce : (!(T.spanAt k != T.spanAt k) && !(T.kindAt k == .endOfInput)) = true := by
      simp [hgoes]
    rw [if_pos hforce]
    exact Goes.advance hgoes (Goes.pure fun _ => ⟨rfl, Nat.lt_succ_self k⟩)
  · split
    · apply Goes.advanceAny
      exact fun m hkm => Goes.pure fun _ => ⟨rfl, by omega⟩
    · exact Goes.pure fun _ => ⟨rfl, by omega⟩

variable {stop : Parser Bool} {element : Parser α} {tree : α → SpanTree}

theorem elementRound_appends (hstop : ∀ i, Goes T False i stop fun _ j => j = i)
    (h : Builds T element tree) : Appends T False (elementRound stop element) tree := by
  intro i as j
  apply (hstop j).bind
  rintro stopped j - rfl
  split
  · exact Goes.pure fun _ => id
  apply Goes.atEndThen
  · exact fun _ => Goes.pure fun _ => id
  intro hgoes
  apply Goes.look
  intro full
  split
  · exact Goes.pure fun _ => id
  apply Goes.span
  apply (h j).optional
  · exact fun a k _ ha => Goes.pure fun _ => ⟨ha.lt, fun has => has.push ha⟩
  · intro k hjk
    apply (resume_goes hgoes hjk as).mono
    rintro r m - ⟨rfl, hjm⟩
    exact ⟨hjm, fun has => has.wait (Nat.le_of_lt hjm)⟩

theorem checkSymbol_goes (s : Symbol) : Goes T False i (checkSymbol s) fun _ j => j = i :=
  fun _ hc => .yields (Nat.le_refl i) hc rfl

variable {inner : Parser Stmt}

theorem block_builds (h : Builds T inner Stmt.spanTree) : Builds T (block inner) Block.spanTree := by
  intro i
  apply Goes.span
  apply Goes.expect (by simp)
  apply Goes.bind ((elementRound_appends (fun _ => checkSymbol_goes .closeBrace) h).repeatFrom.permit
    (False.elim ·))
  intro stmts j hij hstmts
  apply Goes.expect (by simp)
  apply Goes.spanFrom
  have hrow : T.Row i (j + 1) (stmts.map Stmt.spanTree) :=
    (hstmts.after (Nat.le_succ i)).wait (Nat.le_succ j)
  exact Goes.pure fun hlen => hrow.enclosed (by omega) hlen

theorem ifStmt_goes (h : Builds T inner Stmt.spanTree) (hk : T.kindAt i ≠ .endOfInput) :
    Goes T True i (ifStmt inner) fun s j => T.Stands i j s.spanTree := by
  apply Goes.span
  apply Goes.advance hk
  apply (condition_lists _).bind
  intro test j _ ⟨hij, htest⟩
  apply (h j).bind
  intro yes k hjk hyes
  have hrow : T.Row i k [test.spanTree, yes.spanTree] :=
    (htest.after (Nat.le_succ i)).append hyes.row
  apply Goes.eatThen (by simp)
  · intro _
    apply (h _).bind
    intro no m hkm hno
    apply Goes.spanFrom
    apply Goes.pure
    intro hlen
    have hall : T.Row i m [test.spanTree, yes.spanTree, no.spanTree] :=
      hrow.append (hno.row.after (Nat.le_succ k))
    exact hall.enclosed (by omega) hlen
  · apply Goes.spanFrom
    exact Goes.pure fun hlen => hrow.enclosed (by omega) hlen

theorem whileStmt_goes (h : Builds T inner Stmt.spanTree) (hk : T.kindAt i ≠ .endOfInput) :
    Goes T True i (whileStmt inner) fun s j => T.Stands i j s.spanTree := by
  apply Goes.span
  apply Goes.advance hk
  apply (condition_lists _).bind
  intro test j _ ⟨hij, htest⟩
  apply (h j).bind
  intro body k hjk hbody
  apply Goes.spanFrom
  have hrow : T.Row i k [test.spanTree, body.spanTree] :=
    (htest.after (Nat.le_succ i)).append hbody.row
  exact Goes.pure fun hlen => hrow.enclosed (by omega) hlen

theorem doStmt_goes (h : Builds T inner Stmt.spanTree) (hk : T.kindAt i ≠ .endOfInput) :
    Goes T True i (doStmt inner) fun s j => T.Stands i j s.spanTree := by
  apply Goes.span
  apply Goes.advance hk
  apply (h _).bind
  intro body j hij hbody
  apply Goes.expect (by simp)
  apply (condition_lists _).bind
  intro test k _ ⟨hjk, htest⟩
  apply Goes.expect (by simp)
  apply Goes.spanFrom
  have hrow : T.Row i (k + 1) [body.spanTree, test.spanTree] :=
    (hbody.row.after (Nat.le_succ i)).append
      ((htest.after (Nat.le_succ j)).wait (Nat.le_succ k))
  exact Goes.pure fun hlen => hrow.enclosed (by omega) hlen

theorem forInit_goes : Goes T True i forInit fun init j => T.Row i j init.spanTrees := by
  apply Goes.checkThen
  · exact fun _ => Goes.pure fun _ => Row.nil (Nat.le_refl i)
  intro _
  apply (startsLocal_goes.permit (False.elim ·)).bind
  rintro found j - rfl
  split
  · apply (localDecl_builds j).bind
    exact fun d k _ hd => Goes.pure fun _ => hd.row
  · apply (expressionList_lists j).bind
    exact fun es k _ hes => Goes.pure fun _ => hes.2

theorem forStmt_goes (h : Builds T inner Stmt.spanTree) (hk : T.kindAt i ≠ .endOfInput) :
    Goes T True i (forStmt inner) fun s j => T.Stands i j s.spanTree := by
  apply Goes.span
  apply Goes.advance hk
  apply Goes.expect (by simp)
  apply forInit_goes.bind
  intro init a hia hinit
  apply Goes.expect (by simp)
  apply (expressionUnless_goes _).bind
  intro test b hab htest
  apply Goes.expect (by simp)
  have hrest : ∀ (update : List Expr) m, b < m → T.Row (b + 1) m (update.map Expr.spanTree) →
      Goes T True m (do
        expectSymbol .closeParen
        let body ← inner
        return Stmt.forLoop (← spanFrom (T.spanAt i)) init test update body)
        fun s n => T.Stands i n s.spanTree := by
    intro update m hbm hupdate
    apply Goes.expect (by simp)
    apply (h _).bind
    intro body n hmn hbody
    apply Goes.spanFrom
    apply Goes.pure
    intro hlen
    have hrow : T.Row i n (init.spanTrees ++ (test.toList.map Expr.spanTree ++
        (update.map Expr.spanTree ++ [body.spanTree]))) :=
      (hinit.after (by omega)).append ((htest.after (Nat.le_succ a)).append
        ((hupdate.after (Nat.le_succ b)).append (hbody.row.after (Nat.le_succ m))))
    exact hrow.enclosed (by omega) hlen
  apply Goes.checkThen
  · exact fun _ => hrest [] (b + 1) (Nat.lt_succ_self b) (Row.nil (Nat.le_refl _))
  · intro _
    apply (expressionList_lists _).bind
    exact fun update m hbm hupdate => hrest update m hbm hupdate.2

theorem jump_goes {make : Span → Stmt} (hmake : ∀ s, (make s).spanTree = .node s [])
    (hk : T.kindAt i ≠ .endOfInput) : Goes T True i (jump make) fun s j => T.Stands i j s.spanTree := by
  apply Goes.span
  apply Goes.advance hk
  apply Goes.expect (by simp)
  apply Goes.spanFrom
  apply Goes.pure
  intro hlen
  rw [hmake]
  exact (Row.nil (by omega)).enclosed (by omega) hlen

theorem jumpWith_goes {make : Span → Option Expr → Stmt}
    (hmake : ∀ s e?, (make s e?).spanTree = .node s (e?.toList.map Expr.spanTree))
    (hk : T.kindAt i ≠ .endOfInput) :
    Goes T True i (jumpWith make) fun s j => T.Stands i j s.spanTree := by
  apply Goes.span
  apply Goes.advance hk
  apply (expressionUnless_goes _).bind
  intro value j hij hvalue
  apply Goes.expect (by simp)
  apply Goes.spanFrom
  apply Goes.pure
  intro hlen
  rw [hmake]
  have hrow : T.Row i (j + 1) (value.toList.map Expr.spanTree) :=
    (hvalue.after (Nat.le_succ i)).wait (Nat.le_succ j)
  exact hrow.enclosed (by omega) hlen

theorem declareStmt_builds : Builds T declareStmt Stmt.spanTree := by
  intro i
  apply (localDecl_builds i).bind
  intro decl j hij hdecl
  have hlt := hdecl.lt
  apply Goes.expect (by simp)
  apply Goes.spanFrom
  have hrow : T.Row i (j + 1) [decl.spanTree] := hdecl.row.wait (Nat.le_succ j)
  exact Goes.pure fun hlen => hrow.closed hdecl.spans (Nat.le_succ j) (by omega) hlen

theorem expressionStmt_builds (topLevel : Bool) : Builds T (expressionStmt topLevel) Stmt.spanTree := by
  intro i
  apply (expression_builds i).bind
  intro e j hij he
  have hlt := he.lt
  -- With the semicolon or without it, the statement ends at the token passed last.
  have hend : ∀ k, j ≤ k → Goes T True k (do return Stmt.expr (← spanFrom e.span) e) fun s m =>
      T.Stands i m s.spanTree := by
    intro k hjk
    apply Goes.spanFrom
    have hrow : T.Row i k [e.spanTree] := he.row.wait hjk
    exact Goes.pure fun hlen => hrow.closed (Expr.stands_spans he) hjk (by omega) hlen
  apply Goes.eatAny (by simp)
  intro found k hjk
  split
  · apply Goes.atEnd
    split
    · exact Goes.expect (by simp) (hend _ (by omega))
    · exact hend k hjk
  · exact hend k hjk

theorem statementWith_builds (h : Builds T inner Stmt.spanTree) (topLevel : Bool) :
    Builds T (statementWith inner topLevel) Stmt.spanTree := by
  intro i
  apply Goes.span
  apply Goes.kind
  generalize hkind : T.kindAt i = l
  have hgoes : l ≠ .endOfInput → T.kindAt i ≠ .endOfInput := fun hl hend => hl (hkind.symm.trans hend)
  split
  · apply (block_builds h i).bind
    intro b j _ hb
    apply Goes.pure
    intro _
    rw [Stmt.spanTree, Stmt.spanTrees_eq]
    exact hb
  · exact Goes.advance (hgoes (by simp)) (Goes.pure fun _ => stands_token (hgoes (by simp)))
  · exact ifStmt_goes h (hgoes (by simp))
  · exact whileStmt_goes h (hgoes (by simp))
  · exact doStmt_goes h (hgoes (by simp))
  · exact forStmt_goes h (hgoes (by simp))
  · exact jump_goes (fun _ => rfl) (hgoes (by simp))
  · exact jump_goes (fun _ => rfl) (hgoes (by simp))
  · exact jumpWith_goes (fun _ _ => rfl) (hgoes (by simp))
  · exact jumpWith_goes (fun _ _ => rfl) (hgoes (by simp))
  · apply (startsLocal_goes.permit (False.elim ·)).bind
    rintro found j - rfl
    split
    · exact declareStmt_builds j
    · exact expressionStmt_builds topLevel j

theorem statementWithin_builds (room : Nat) (topLevel : Bool) :
    Builds T (statementWithin room topLevel) Stmt.spanTree := by
  induction room generalizing topLevel with
  | zero => exact fun _ => tooDeep_goes _
  | succ room ih => exact statementWith_builds (ih false) topLevel

theorem body_builds : Builds T body Block.spanTree := block_builds (statementWithin_builds maxNesting false)

/-- After a round that began at `i`, where the input went on, a token has been passed. -/
theorem Goes.ensureProgress {E : Prop} {β : Type} {f : Unit → Parser β} {C : β → Nat → Prop}
    (hgoes : T.kindAt i ≠ .endOfInput) (hij : i ≤ j) (h : ∀ k, i < k → j ≤ k → Goes T E k (f ()) C) :
    Goes T E j (ensureProgress (T.body.length + 1 - i) >>= f) C := by
  intro c hc
  have hlen := hc.le
  have hremaining := hc.remaining
  by_cases hstuck : j = i
  · subst hstuck
    have hmoved : Parser.ensureProgress (T.body.length + 1 - j) c = (some (), c.advance) := by
      rw [Parser.ensureProgress, Attempt.modify, if_pos hremaining]
    have hf := h (j + 1) (Nat.lt_succ_self j) (Nat.le_succ j) c.advance (hc.advance hgoes)
    rw [Attempt.bind_eq_of_run hmoved]
    exact hf.before (Nat.le_succ j)
  · have hstayed : Parser.ensureProgress (T.body.length + 1 - i) c = (some (), c) := by
      rw [Parser.ensureProgress, Attempt.modify, if_neg (by omega)]
    rw [Attempt.bind_eq_of_run hstayed]
    exact h j (by omega) (Nat.le_refl j) c hc

theorem statementRound_appends : Appends T False statementRound Stmt.spanTree := by
  intro i stmts j
  apply Goes.atEndThen
  · exact fun _ => Goes.pure fun _ => id
  intro hgoes
  apply Goes.look
  intro full
  split
  · exact Goes.pure fun _ => id
  apply Goes.remaining
  apply (statementWithin_builds maxNesting true j).optional
  · intro s k hjk hs
    apply Goes.ensureProgress hgoes hjk
    exact fun m hjm hkm => Goes.pure fun _ => ⟨hjm, fun hstmts => (hstmts.push hs).wait hkm⟩
  · intro k hjk
    apply Goes.synchronize
    intro m hkm
    apply Goes.ensureProgress hgoes (Nat.le_trans hjk hkm)
    exact fun n hjn _ => Goes.pure fun _ => ⟨hjn, fun hstmts => hstmts.wait (Nat.le_of_lt hjn)⟩

theorem statementUnit_goes : Goes T False 0 statementUnit fun u _ => T.Tidy → u.spanTree.Nested := by
  rw [statementUnit]
  apply Goes.span
  apply statementRound_appends.repeatFrom.bind
  intro stmts j _ hstmts
  apply Goes.spanFrom
  exact Goes.pure fun hlen => hstmts.whole hlen

end Chunkwise.Parser
