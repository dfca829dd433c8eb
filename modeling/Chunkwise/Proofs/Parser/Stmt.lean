import Chunkwise.Parser.Stmt
import Chunkwise.Proofs.Parser.Expr

namespace Chunkwise

namespace Grammar

theorem sepBy_le_commaList (ls : List (Language TokenKind)) : sepBy (sign ",") ls ≤ commaList ls := by
  cases ls with
  | nil => exact bot_le
  | cons l ls => exact le_rfl

theorem stmts_eq (ss : List Stmt) : stmts ss = (ss.map stmt).prod := by
  induction ss with
  | nil => rfl
  | cons s ss ih => rw [stmts, ih, List.map_cons, List.prod_cons]

theorem stmts_concat (ss : List Stmt) (s : Stmt) : stmts (ss ++ [s]) = stmts ss * stmt s := by
  simp [stmts_eq]

theorem nil_notMem_stmt (s : Stmt) : [] ∉ stmt s := by
  cases s with
  | empty => exact nil_notMem_sign _
  | block | declare | expr | doWhile | breakLoop | continueLoop | returnValue | throwValue =>
    exact Parser.nil_notMem_mul_right (nil_notMem_sign _)
  | ifElse _ _ _ no =>
    have hif : ∀ l l' : Language TokenKind, [] ∉ word "if" * l * l' := fun l l' =>
      Parser.nil_notMem_mul_left (Parser.nil_notMem_mul_left (nil_notMem_word _))
    cases no with
    | none => exact hif _ _
    | some no => exact Parser.nil_notMem_mul_left (Parser.nil_notMem_mul_left (hif _ _))
  | whileDo => exact Parser.nil_notMem_mul_left (Parser.nil_notMem_mul_left (nil_notMem_word _))
  | forLoop =>
    exact Parser.nil_notMem_mul_left (Parser.nil_notMem_mul_right (nil_notMem_sign _))

/-- An expression without its semicolon. -/
def bare : Stmt → Language TokenKind
  | .expr _ e => expr e
  | _ => 0

theorem nil_notMem_expr (e : Expr) : [] ∉ expr e := by
  rw [expr, exprAt_of_le (Nat.zero_le _)]
  cases e with
  | int | double | str | name => exact nil_notMem_token _
  | bool | null | thisRef => exact nil_notMem_word _
  | paren => exact Parser.nil_notMem_mul_right (nil_notMem_sign _)
  | new => exact Parser.nil_notMem_mul_left (Parser.nil_notMem_mul_left (nil_notMem_word _))
  | member => exact Parser.nil_notMem_mul_right (nil_notMem_ident _)
  | call =>
    exact Parser.nil_notMem_mul_right (Parser.nil_notMem_mul_right (nil_notMem_sign _))
  | unary => exact Parser.nil_notMem_mul_left (nil_notMem_sign _)
  | step _ _ isPrefix =>
    cases isPrefix with
    | true => exact Parser.nil_notMem_mul_left (nil_notMem_sign _)
    | false => exact Parser.nil_notMem_mul_right (nil_notMem_sign _)
  | binary _ op =>
    cases op <;> exact Parser.nil_notMem_mul_left (Parser.nil_notMem_mul_right (nil_notMem_sign _))
  | cond =>
    exact Parser.nil_notMem_mul_left (Parser.nil_notMem_mul_right (nil_notMem_sign _))
  | assign =>
    exact Parser.nil_notMem_mul_left (Parser.nil_notMem_mul_right (nil_notMem_sign _))

theorem nil_notMem_bare (s : Stmt) : [] ∉ bare s := by
  cases s with
  | expr _ e => exact nil_notMem_expr e
  | _ => exact fun h => h

/-- Statements of which the last is an expression without its semicolon. -/
def bareLast (ss : List Stmt) : Language TokenKind :=
  {w | ∃ init last, ss = init ++ [last] ∧ w ∈ stmts init * bare last}

theorem hostStmts_cons_cons (s t : Stmt) (rest : List Stmt) :
    hostStmts (s :: t :: rest) = stmt s * hostStmts (t :: rest) := by
  rw [hostStmts]
  simp

theorem stmts_le_hostStmts (ss : List Stmt) : stmts ss ≤ hostStmts ss := by
  induction ss with
  | nil => exact le_rfl
  | cons s rest ih =>
    cases rest with
    | cons t rest =>
      rw [hostStmts_cons_cons]
      exact mul_le_mul' le_rfl ih
    | nil =>
      cases s with
      | expr span e =>
        simp only [stmts, stmt, hostStmts, mul_one]
        exact mul_le_mul' le_rfl fun _ hw => .inr hw
      | _ => exact le_rfl

theorem bareLast_le_hostStmts (ss : List Stmt) : bareLast ss ≤ hostStmts ss := by
  rintro w ⟨init, last, rfl, hw⟩
  revert w
  change stmts init * bare last ≤ hostStmts (init ++ [last])
  induction init with
  | nil =>
    cases last with
    | expr span e =>
      simp only [stmts, one_mul, bare, List.nil_append, hostStmts]
      exact le_mul_of_one_le_right' fun _ hw => .inl hw
    | _ => simp [bare]
  | cons s rest ih =>
    have hhead : hostStmts (s :: rest ++ [last]) = stmt s * hostStmts (rest ++ [last]) := by
      cases rest with
      | nil => exact hostStmts_cons_cons s last []
      | cons t rest => exact hostStmts_cons_cons s t (rest ++ [last])
    rw [hhead, stmts, mul_assoc]
    exact mul_le_mul' le_rfl ih

end Grammar

namespace Parser

open Grammar

variable {L : Language TokenKind} {inner : Parser Stmt}

theorem condition_reads : Reads Parser.condition Grammar.condition := by
  intro L
  refine (expectSymbol_reads .openParen).bind fun _ => expression_reads.bind fun test => ?_
  refine (expectSymbol_reads .closeParen).bind fun _ => Parses.pure fun _ => le_of_eq ?_
  simp only [Grammar.condition, mul_assoc, Symbol.text]

theorem expressionList_reads :
    Reads expressionList fun es => sepBy (sign ",") (es.map expr) := by
  intro L
  refine expression_reads.bind fun first => ?_
  refine Parses.repeatFrom (I := fun es _ => L * sepBy (sign ",") (es.map expr)) (fun n es => ?_)
    [first]
  refine eatSymbol_then .comma (expression_reads.bind fun e => Parses.pure fun _ => ?_)
    (Parses.pure fun _ => sized_le _ _)
  rw [mul_assoc]
  refine sized_mul_le (nil_notMem_mul_left (nil_notMem_sign _)) ?_ n
  have hlist := sepBy_concat_le (sign ",") (es.map expr) (expr e)
  simpa [mul_assoc, Symbol.text] using hlist

theorem expressionUnless_reads (s : Symbol) : Reads (expressionUnless s) optionalExpr := by
  intro L
  refine Parses.look fun found => ?_
  cases found with
  | true => exact Parses.pure fun _ => le_of_eq (mul_one L).symm
  | false => exact expression_reads.bind fun e => Parses.pure fun _ => le_rfl

theorem keyword_then {β : Type} {C : β → Cursor → Language TokenKind} {k : Keyword} {p : Parser β}
    (hp : Parses (fun _ => L * word k.text) p C) :
    Parses (here (.keyword k) L) (do advance; p) C := by
  refine (Parses.advance (by simp)).bind fun _ => hp.mono (fun _ => ?_) fun _ _ => le_rfl
  exact mul_le_mul' le_rfl (Set.singleton_subset_iff.mpr (word_self k))

theorem startsLocal_then {β : Type} {A : Cursor → Language TokenKind}
    {C : β → Cursor → Language TokenKind} {p q : Parser β} (hp : Parses A p C) (hq : Parses A q C) :
    Parses A (do if ← startsLocal then p else q) C := by
  have hlook : Parses A startsLocal fun _ => A := by
    refine Parses.look fun found => ?_
    split
    · exact Parses.pure fun _ => le_rfl
    · exact Parses.gets.mono (fun _ => le_rfl) fun _ _ _ hw => hw.1
  refine hlook.bind fun found => ?_
  split
  · exact hp
  · exact hq

theorem initializer_reads : Reads Parser.initializer Grammar.initializer := by
  intro L
  refine eatSymbol_then .assign (expression_reads.bind fun e => Parses.pure fun _ => le_of_eq ?_)
    (Parses.pure fun _ => le_of_eq (mul_one L).symm)
  simp only [Grammar.initializer, mul_assoc, Symbol.text]

theorem declarators_reads :
    Reads declarators fun ds => sepBy (sign ",") (ds.map declarator) := by
  intro L
  have hstart : L = L * trailed (sign ",") (([] : List Declarator).map declarator) := by
    simp [trailed]
  refine Parses.mono (Parses.repeatFrom
    (I := fun ds _ => L * trailed (sign ",") (ds.map declarator)) (fun n ds => ?_) [])
    (fun _ => le_of_eq hstart) fun _ _ => le_rfl
  refine identifier_reads.bind fun name => initializer_reads.bind fun init => Parses.span fun span => ?_
  refine eatSymbol_then .comma (Parses.pure fun _ => ?_) (Parses.pure fun _ => ?_)
  · rw [mul_assoc, mul_assoc]
    refine sized_mul_le (nil_notMem_mul_left (nil_notMem_ident _)) (le_of_eq ?_) n
    simp [trailed_concat, declarator, mul_assoc, Symbol.text]
  · have hlist := trailed_mul_le (sign ",") (ds.map declarator) (ident name * Grammar.initializer init)
    have hall : L * trailed (sign ",") (ds.map declarator) * (ident name * Grammar.initializer init) ≤
        L * sepBy (sign ",") ((ds ++ [(⟨name, init, span⟩ : Declarator)]).map declarator) := by
      rw [mul_assoc, List.map_append]
      exact mul_le_mul' le_rfl hlist
    rw [mul_assoc]
    exact le_trans (mul_le_mul' (sized_le _ _) le_rfl) hall

theorem localDecl_reads : Reads Parser.localDecl Grammar.localDecl := by
  intro L
  refine Parses.look fun start => ?_
  refine (eat_parses (G := word "const") (by simp) (word_self .constKw)).bind fun isConst => ?_
  have hconst : ((if isConst = true then L * word "const" else L) : Language TokenKind) =
      L * if isConst = true then word "const" else 1 := by
    cases isConst <;> simp
  rw [hconst]
  refine typeRef_reads.bind fun type => declarators_reads.bind fun names => Parses.span fun span => ?_
  refine Parses.pure fun _ => le_of_eq ?_
  simp only [Grammar.localDecl, mul_assoc]

theorem nothing_parses {α : Type} {B : α → Cursor → Language TokenKind} {a : α} :
    Parses (fun _ => 0) (Pure.pure a) B :=
  Parses.pure fun _ => bot_le

theorem forced_parses {α : Type} {before : Span} {a : α} {B : α → Cursor → Language TokenKind} :
    Parses (fun _ => 0) (do
      synchronize
      let moved := (← currentSpan) != before
      if !moved && !(← atEnd) then advance
      return a) B := by
  refine synchronize_parses.bind (B := fun _ _ => 0) fun _ => Parses.look fun after => ?_
  refine Parses.look fun ended => ?_
  split
  · exact (Parses.recover (B := fun _ _ => 0) fun _ hc => Cursor.advance_leads hc).bind
      fun _ => nothing_parses
  · exact nothing_parses

/-- Elements are read one after the other until one of three things stops them. -/
theorem elements_parses {α : Type} {stop : Parser Bool} {element : Parser α}
    {G : α → Language TokenKind} {S R : Cursor → Prop}
    (hstop : ∀ A, Parses A stop fun b c => {w | w ∈ A c ∧ (b = true → S c)}) (hR : Onward R)
    (helement : ∀ L, Parses (under R fun _ => L) element fun a _ => L * G a) (hG : ∀ a, [] ∉ G a) :
    Parses (under R fun _ => L) (elements stop element) fun as c =>
      {w | w ∈ L * (as.map G).prod ∧ (S c ∨ c.atEnd = true ∨ c.issues.isFull = true)} := by
  have hstart : L = L * (([] : List α).map G).prod := by simp
  refine Parses.mono (Parses.repeatFrom (I := fun as => under R fun _ => L * (as.map G).prod)
    (fun n as => ?_) []) (fun _ _ hw => ⟨hstart ▸ hw.1, hw.2⟩) fun _ _ => le_rfl
  refine (hstop _).bind fun stopped => ?_
  cases stopped with
  | true => exact Parses.pure fun _ w hw => ⟨hw.1.1.1, .inl (hw.2 rfl)⟩
  | false =>
  refine Parses.gets.bind fun ended => ?_
  cases ended with
  | true => exact Parses.pure fun _ w hw => ⟨hw.1.1.1.1, .inr (.inl hw.2)⟩
  | false =>
  refine Parses.gets.bind fun full => ?_
  cases full with
  | true => exact Parses.pure fun _ w hw => ⟨hw.1.1.1.1.1, .inr (.inr hw.2)⟩
  | false =>
  refine Parses.mono (A := under R fun _ => sized n (L * (as.map G).prod)) ?_
    (fun _ _ hw => ⟨⟨hw.1.1.1.1.1, hw.1.1.1.2⟩, hw.1.1.1.1.2⟩) fun _ _ => le_rfl
  refine Parses.look fun before => (Parses.onward hR (helement _)).optional.bind fun a? => ?_
  cases a? with
  | some a =>
    have hgrown : sized n (L * (as.map G).prod) * G a ≤ longer n (L * ((as ++ [a]).map G).prod) :=
      sized_mul_le (hG a) (le_of_eq (by simp)) n
    exact Parses.pure fun _ w hw => ⟨⟨(hgrown hw.1).1, hw.2⟩, (hgrown hw.1).2⟩
  | none => exact forced_parses

theorem block_reads (hinner : Reads inner stmt) : Reads (Parser.block inner) Grammar.block := by
  intro L
  refine Parses.look fun start => (expectSymbol_reads .openBrace).bind fun _ => ?_
  have hstop : ∀ A, Parses A (checkSymbol .closeBrace)
      fun b c => {w | w ∈ A c ∧ (b = true → True)} :=
    fun A => Parses.gets.mono (fun _ => le_rfl) fun _ _ _ hw => ⟨hw.1, fun _ => trivial⟩
  have hstmts := elements_parses (R := fun _ => True) (L := L * sign "\x7b") hstop
    (fun _ _ _ _ _ => trivial) (fun L => (hinner L).mono (fun _ _ hw => hw.1) fun _ _ => le_rfl)
    nil_notMem_stmt
  refine (hstmts.mono (fun _ _ hw => ⟨hw, trivial⟩) fun _ _ => le_rfl).bind fun ss => ?_
  refine ((expectSymbol_reads .closeBrace _).mono (fun _ _ hw => hw.1) fun _ _ => le_rfl).bind
    fun _ => Parses.span fun span => Parses.pure fun _ => le_of_eq ?_
  simp only [Grammar.block, stmts_eq, mul_assoc, Symbol.text]

theorem ifStmt_parses (hinner : Reads inner stmt) :
    Parses (here (.keyword .ifKw) L) (ifStmt inner) fun s _ => L * stmt s := by
  refine Parses.look fun start => keyword_then ?_
  refine condition_reads.bind fun test => hinner.bind fun yes => ?_
  refine eat_then (by simp) (word_self .elseKw) ?_ ?_
  · refine hinner.bind fun no => Parses.span fun span => Parses.pure fun _ => le_of_eq ?_
    simp only [stmt, mul_assoc, Keyword.text]
  · refine Parses.span fun span => Parses.pure fun _ => le_of_eq ?_
    simp only [stmt, mul_assoc, Keyword.text]

theorem whileStmt_parses (hinner : Reads inner stmt) :
    Parses (here (.keyword .whileKw) L) (whileStmt inner) fun s _ => L * stmt s := by
  refine Parses.look fun start => keyword_then ?_
  refine condition_reads.bind fun test => hinner.bind fun body => Parses.span fun span => ?_
  refine Parses.pure fun _ => le_of_eq ?_
  simp only [stmt, mul_assoc, Keyword.text]

theorem doStmt_parses (hinner : Reads inner stmt) :
    Parses (here (.keyword .doKw) L) (doStmt inner) fun s _ => L * stmt s := by
  refine Parses.look fun start => keyword_then ?_
  refine hinner.bind fun body => (expectKeyword_reads .whileKw).bind fun _ => ?_
  refine condition_reads.bind fun test => (expectSymbol_reads .semicolon).bind fun _ => ?_
  refine Parses.span fun span => Parses.pure fun _ => le_of_eq ?_
  simp only [stmt, mul_assoc, Keyword.text, Symbol.text]

theorem forInit_reads : Reads Parser.forInit Grammar.forInit := by
  intro L
  refine Parses.look fun done => ?_
  split
  · exact Parses.pure fun _ => le_of_eq (mul_one L).symm
  · refine startsLocal_then ?_ ?_
    · exact localDecl_reads.bind fun d => Parses.pure fun _ => le_rfl
    · exact expressionList_reads.bind fun es => Parses.pure fun _ => le_rfl

theorem forStmt_parses (hinner : Reads inner stmt) :
    Parses (here (.keyword .forKw) L) (forStmt inner) fun s _ => L * stmt s := by
  refine Parses.look fun start => keyword_then ?_
  refine (expectSymbol_reads .openParen).bind fun _ => forInit_reads.bind fun init => ?_
  refine (expectSymbol_reads .semicolon).bind fun _ => ?_
  refine (expressionUnless_reads .semicolon).bind fun test => ?_
  refine (expectSymbol_reads .semicolon).bind fun _ => ?_
  -- what follows the updates, whether there are any or not
  have hbody : ∀ update, Parses (fun _ => L * word "for" * sign "(" * Grammar.forInit init * sign ";" *
      optionalExpr test * sign ";" * commaList (update.map expr)) (do
        expectSymbol .closeParen
        let body ← inner
        return .forLoop (← spanFrom start) init test update body) fun s _ => L * stmt s := by
    intro update
    refine (expectSymbol_reads .closeParen).bind fun _ => hinner.bind fun body => ?_
    refine Parses.span fun span => Parses.pure fun _ => le_of_eq ?_
    simp only [stmt, mul_assoc, Symbol.text]
  refine Parses.look fun done => ?_
  split
  · exact (hbody []).mono (fun _ => le_of_eq (mul_one _).symm) fun _ _ => le_rfl
  · refine expressionList_reads.bind fun es => (hbody es).mono (fun _ => ?_) fun _ _ => le_rfl
    exact mul_le_mul' le_rfl (sepBy_le_commaList _)

theorem jump_parses {k : Keyword} {make : Span → Stmt}
    (hmake : ∀ span, stmt (make span) = word k.text * sign ";") :
    Parses (here (.keyword k) L) (jump make) fun s _ => L * stmt s := by
  refine Parses.look fun start => keyword_then ?_
  refine (expectSymbol_reads .semicolon).bind fun _ => Parses.span fun span => ?_
  refine Parses.pure fun _ => le_of_eq ?_
  simp only [hmake, mul_assoc, Symbol.text]

theorem jumpWith_parses {k : Keyword} {make : Span → Option Expr → Stmt}
    (hmake : ∀ span value, stmt (make span value) = word k.text * optionalExpr value * sign ";") :
    Parses (here (.keyword k) L) (jumpWith make) fun s _ => L * stmt s := by
  refine Parses.look fun start => keyword_then ?_
  refine (expressionUnless_reads .semicolon).bind fun value => ?_
  refine (expectSymbol_reads .semicolon).bind fun _ => Parses.span fun span => ?_
  refine Parses.pure fun _ => le_of_eq ?_
  simp only [hmake, mul_assoc, Symbol.text]

theorem declareStmt_reads : Reads declareStmt stmt := by
  intro L
  refine localDecl_reads.bind fun d => (expectSymbol_reads .semicolon).bind fun _ => ?_
  refine Parses.span fun span => Parses.pure fun _ => le_of_eq ?_
  simp only [stmt, mul_assoc, Symbol.text]

/-- What a statement of a chunk leaves behind: at the end of the input its semicolon may be missing. -/
def chunkStmt (L : Language TokenKind) (topLevel : Bool) (s : Stmt) (c : Cursor) :
    Language TokenKind :=
  {w | w ∈ L * stmt s ∨ topLevel = true ∧ c.atEnd = true ∧ w ∈ L * bare s}

theorem expressionStmt_parses (topLevel : Bool) :
    Parses (fun _ => L) (expressionStmt topLevel) (chunkStmt L topLevel) := by
  refine expression_reads.bind fun e => ?_
  have hclosed : ∀ span, L * expr e * sign ";" ≤ L * stmt (.expr span e) := fun span =>
    le_of_eq (mul_assoc _ _ _)
  refine (eat_parses (by simp) (sign_self .semicolon)).bind fun closed => ?_
  cases closed with
  | true => exact Parses.span fun span => Parses.pure fun _ _ hw => .inl (hclosed span hw)
  | false =>
  refine Parses.gets.bind fun ended => ?_
  by_cases hlast : (topLevel && ended) = true
  · obtain ⟨rfl, rfl⟩ := Bool.and_eq_true_iff.mp hlast
    exact Parses.span fun span => Parses.pure fun _ _ hw => .inr ⟨rfl, hw.2, hw.1⟩
  · have hopen : (!(topLevel && ended)) = true := by simp [hlast]
    rw [if_pos hopen]
    refine ((expectSymbol_reads .semicolon _).mono (fun _ _ hw => hw.1) fun _ _ => le_rfl).bind
      fun _ => Parses.span fun span => Parses.pure fun _ _ hw => .inl (hclosed span hw)

theorem statementWith_parses (hinner : Reads inner stmt) (topLevel : Bool) :
    Parses (fun _ => L) (statementWith inner topLevel) (chunkStmt L topLevel) := by
  have hwhole : ∀ {A : Cursor → Language TokenKind} {p : Parser Stmt},
      Parses A p (fun s _ => L * stmt s) → Parses A p (chunkStmt L topLevel) :=
    fun h => h.mono (fun _ => le_rfl) fun _ _ _ hw => .inl hw
  refine Parses.look fun start => Parses.peek fun k => ?_
  split
  · refine hwhole (Parses.anywhere ?_)
    refine (block_reads hinner).bind fun b => Parses.pure fun _ => le_of_eq ?_
    simp only [stmt, Grammar.block]
  · refine hwhole ((Parses.advance (by simp)).bind fun _ => Parses.pure fun _ => ?_)
    exact mul_le_mul' le_rfl (Set.singleton_subset_iff.mpr (sign_self .semicolon))
  · exact hwhole (ifStmt_parses hinner)
  · exact hwhole (whileStmt_parses hinner)
  · exact hwhole (doStmt_parses hinner)
  · exact hwhole (forStmt_parses hinner)
  · exact hwhole (jump_parses fun _ => rfl)
  · exact hwhole (jump_parses fun _ => rfl)
  · exact hwhole (jumpWith_parses fun _ _ => rfl)
  · exact hwhole (jumpWith_parses fun _ _ => rfl)
  · refine Parses.anywhere (startsLocal_then (hwhole (declareStmt_reads L)) ?_)
    exact expressionStmt_parses topLevel

theorem statementWithin_parses (room : Nat) (topLevel : Bool) :
    Parses (fun _ => L) (statementWithin room topLevel) (chunkStmt L topLevel) := by
  induction room generalizing topLevel L with
  | zero => exact .ofReports fun c hc => c.report_leads hc _ _
  | succ room ih =>
    refine statementWith_parses (fun L => ?_) topLevel
    refine (ih false).mono (fun _ => le_rfl) fun s c w hw => ?_
    rcases hw with hw | ⟨hfalse, -⟩
    · exact hw
    · cases hfalse

theorem statement_reads : Reads (statement false) stmt := by
  intro L
  refine (statementWithin_parses maxNesting false).mono (fun _ => le_rfl) fun s c w hw => ?_
  rcases hw with hw | ⟨hfalse, -⟩
  · exact hw
  · cases hfalse

theorem body_reads : Reads body Grammar.block := block_reads statement_reads

theorem ensureProgress_leads (left : Nat) {c : Cursor} (hc : c.Clean) :
    c.Leads (if c.remaining = left then c.advance else c) := by
  split
  · exact c.advance_leads hc
  · exact .refl hc

theorem ensureProgress_parses {A : Cursor → Language TokenKind} (left : Nat) :
    Parses (fun c => {w | w ∈ A c ∧ c.remaining ≠ left}) (ensureProgress left) fun _ => A := by
  intro c hc
  refine ⟨ensureProgress_leads left hc, fun w hw _ => ⟨(), [], rfl, ?_⟩⟩
  have hsame : (ensureProgress left c).2 = c := if_neg hw.2
  rw [hsame, List.append_nil]
  exact ⟨.refl c, hw.1⟩

/-- The statements read so far; a missing semicolon ends the input. -/
def soFar (ss : List Stmt) (c : Cursor) : Language TokenKind :=
  {w | w ∈ stmts ss ∨ c.atEnd = true ∧ w ∈ bareLast ss}

theorem soFar_le_hostStmts (ss : List Stmt) (c : Cursor) : soFar ss c ≤ hostStmts ss := by
  intro w hw
  rcases hw with hw | ⟨-, hw⟩
  · exact stmts_le_hostStmts ss hw
  · exact bareLast_le_hostStmts ss hw

theorem chunkStmt_le (n : Nat) (ss : List Stmt) (s : Stmt) (c : Cursor) :
    chunkStmt (sized n (stmts ss)) true s c ≤ longer n (soFar (ss ++ [s]) c) := by
  intro w hw
  rcases hw with hw | ⟨-, hended, hw⟩
  · have hgrown := sized_mul_longer (nil_notMem_stmt s) (le_of_eq (stmts_concat ss s).symm) n
    exact ⟨.inl (hgrown hw).1, (hgrown hw).2⟩
  · have hgrown := sized_mul_longer (nil_notMem_bare s) (le_refl (stmts ss * bare s)) n
    exact ⟨.inr ⟨hended, ss, s, rfl, (hgrown hw).1⟩, (hgrown hw).2⟩

theorem statementUnit_parses : Parses (fun _ => 1) Parser.statementUnit fun u c =>
    {w | w ∈ Grammar.statementUnit u ∧ (c.atEnd = true ∨ c.issues.isFull = true)} := by
  refine Parses.look fun start => ?_
  refine Parses.bind (B := fun ss c =>
    {w | w ∈ hostStmts ss ∧ (c.atEnd = true ∨ c.issues.isFull = true)}) ?_ fun ss =>
      Parses.span fun span => Parses.pure fun _ => le_rfl
  refine Parses.mono (Parses.repeatFrom (I := soFar) (fun n ss => ?_) [])
    (fun _ _ hw => .inl hw) fun _ _ => le_rfl
  refine Parses.gets.bind fun ended => ?_
  cases ended with
  | true => exact Parses.pure fun _ w hw => ⟨soFar_le_hostStmts ss _ hw.1.1, .inl hw.2⟩
  | false =>
  refine Parses.gets.bind fun full => ?_
  cases full with
  | true => exact Parses.pure fun _ w hw => ⟨soFar_le_hostStmts ss _ hw.1.1.1, .inr hw.2⟩
  | false =>
  refine Parses.gets.bind fun left => ?_
  -- the input goes on, so no semicolon is missing
  refine Parses.mono (A := fun c => {w | w ∈ sized n (stmts ss) ∧ w.length + c.remaining = n + left})
    ?_ (fun c w hw => ?_) fun _ _ => le_rfl
  · refine ((statementWithin_parses maxNesting true).counted (n + left)).optional.bind fun s? => ?_
    cases s? with
    | some s =>
      refine Parses.bind (B := fun _ c => longer n (soFar (ss ++ [s]) c)) ?_ fun _ =>
        Parses.pure fun _ => le_rfl
      refine (ensureProgress_parses left).mono (fun c w hw => ?_) fun _ _ => le_rfl
      have hgrown := chunkStmt_le n ss s c hw.1
      have hcount := hw.2
      have hlonger := hgrown.2
      exact ⟨hgrown, by omega⟩
    | none =>
      refine synchronize_parses.bind (B := fun _ _ => 0) fun _ => ?_
      exact (Parses.recover (B := fun _ _ => 0) fun _ hc => ensureProgress_leads left hc).bind
        fun _ => nothing_parses
  · obtain ⟨⟨⟨⟨hmem, hlength⟩, hended⟩, -⟩, hleft⟩ := hw
    rcases hmem with hmem | ⟨hend, -⟩
    · exact ⟨⟨hmem, hlength⟩, by rw [hlength, hleft]⟩
    · rw [hend] at hended
      cases hended

end Parser

end Chunkwise
