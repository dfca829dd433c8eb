import Chunkwise.Proofs.Binder.Arithmetic
import Chunkwise.Proofs.Session.Interrupt
import Chunkwise.Proofs.Session.Splitting
import Chunkwise.Proofs.Token.Rendering

/-!
What an evaluator shows for an integer is typed back as a chunk, alone or as the value of a variable.
Every integer but the least one comes back: a chunk with nothing else has it as its result, and a
variable that it initializes has type int or long by the size of the integer. The digits of the least
integer are out of range for the lexer, which has no look at the sign before them.
-/
namespace Chunkwise

open Attempt

/-- The expression is a shown integer: a literal, or a minus sign and a literal. -/
inductive Expr.Shows : Expr → Int64 → Prop where
  | int (span : Span) (n : Int64) : Shows (.int span n) n
  | neg (outer inner : Span) (n : Int64) : Shows (.unary outer .neg (.int inner (-n))) n

/-- The statement is `var name = e;`. -/
inductive Stmt.Declares (name : String) (e : Expr) : Stmt → Prop where
  | mk (span type decl ident whole : Span) : Declares name e
      (.declare span ⟨false, ⟨.infer, type⟩, [⟨⟨name, ident⟩, some e, decl⟩], whole⟩)

theorem exists_of_map_kind {ts : List Token} {k : TokenKind} {ks : List TokenKind}
    (h : ts.map Token.kind = k :: ks) : ∃ a rest, ts = ⟨k, a⟩ :: rest ∧ rest.map Token.kind = ks := by
  obtain ⟨t, rest, rfl, rfl, hrest⟩ := List.map_eq_cons_iff.mp h
  exact ⟨t.span, rest, rfl, hrest⟩

namespace Parser

variable {n : Int64} {tokens : List Token}

theorem statementUnit_shown (h : tokens.map Token.kind = shownTokens n ++ [TokenKind.endOfInput]) :
    ∃ e span whole c, statementUnit (Cursor.ofTokens tokens) = (some ⟨[.expr span e], whole⟩, c) ∧
      c.issues = .empty ∧ e.Shows n := by
  unfold shownTokens at h
  split at h
  · obtain ⟨_, _, rfl, h₁⟩ := exists_of_map_kind h
    obtain ⟨_, _, rfl, h₂⟩ := exists_of_map_kind h₁
    obtain ⟨_, _, rfl, h₃⟩ := exists_of_map_kind h₂
    obtain rfl := List.map_eq_nil_iff.mp h₃
    exact ⟨_, _, _, _, rfl, rfl, .neg _ _ n⟩
  · obtain ⟨_, _, rfl, h₁⟩ := exists_of_map_kind h
    obtain ⟨_, _, rfl, h₂⟩ := exists_of_map_kind h₁
    obtain rfl := List.map_eq_nil_iff.mp h₂
    exact ⟨_, _, _, _, rfl, rfl, .int _ n⟩

theorem statementUnit_declared {name : String} (h : tokens.map Token.kind =
      .keyword .varKw :: .ident name :: .symbol .assign ::
        (shownTokens n ++ [TokenKind.symbol .semicolon, .endOfInput])) :
    ∃ e x whole c, statementUnit (Cursor.ofTokens tokens) = (some ⟨[x], whole⟩, c) ∧
      c.issues = .empty ∧ e.Shows n ∧ x.Declares name e := by
  obtain ⟨_, _, rfl, h₁⟩ := exists_of_map_kind h
  obtain ⟨_, _, rfl, h₂⟩ := exists_of_map_kind h₁
  obtain ⟨_, _, rfl, h₃⟩ := exists_of_map_kind h₂
  unfold shownTokens at h₃
  split at h₃
  · obtain ⟨_, _, rfl, h₄⟩ := exists_of_map_kind h₃
    obtain ⟨_, _, rfl, h₅⟩ := exists_of_map_kind h₄
    obtain ⟨_, _, rfl, h₆⟩ := exists_of_map_kind h₅
    obtain ⟨_, _, rfl, h₇⟩ := exists_of_map_kind h₆
    obtain rfl := List.map_eq_nil_iff.mp h₇
    exact ⟨_, _, _, _, rfl, rfl, .neg _ _ n, .mk _ _ _ _ _⟩
  · obtain ⟨_, _, rfl, h₄⟩ := exists_of_map_kind h₃
    obtain ⟨_, _, rfl, h₅⟩ := exists_of_map_kind h₄
    obtain ⟨_, _, rfl, h₆⟩ := exists_of_map_kind h₅
    obtain rfl := List.map_eq_nil_iff.mp h₆
    exact ⟨_, _, _, _, rfl, rfl, .int _ n, .mk _ _ _ _ _⟩

end Parser

/-- What is parsed from tokens without an issue is clean if the lexer has no issue either. -/
theorem clean?_of_run {α : Type} {parser : Parser α} {src : Source} {a : α} {c : Cursor}
    (hlex : (lex src.text).issues = .empty)
    (hrun : parser (Cursor.ofTokens (lex src.text).tokens) = (some a, c)) (hc : c.issues = .empty) :
    (parseWith parser src).clean? = some a := by
  have hquiet : ((Diagnostics.ofIssues src .empty).mergeInSourceOrder
      (Diagnostics.ofIssues src .empty)).hasErrors = false := by
    simp [Diagnostics.mergeInSourceOrder, Diagnostics.ofIssues, Diagnostics.hasErrors, Log.map, Log.empty,
      Log.pushAll, Log.hasAny]
  rw [Parsed.clean?_eq_some]
  simp only [parseWith, hlex, hrun, hc, hquiet, and_self]

theorem classify_of_adjoins {k : TokenKind} {ks : List TokenKind} {text : String}
    (h : Adjoins (k :: ks) text.toList) :
    ∃ second, classify text = ChunkClass.ofKinds k second := by
  generalize htext : text.toList = cs at h
  cases h with
  | token hg _ hk _ =>
    obtain ⟨hkind, -, -⟩ := Lexer.next_before (l := Lexer.ofText text) hg hk htext rfl
    exact ⟨_, congrArg (ChunkClass.ofKinds · _) hkind⟩

/-- The text of a declaration that gives a variable its first value. -/
def declarationText (name value : String) : String := "var " ++ name ++ " = " ++ value ++ ";"

theorem read_shown {n : Int64} (hn : n ≠ Int64.minValue) (file : String) :
    classify (toString n.toInt) = .statements ∧ ∃ e span whole, e.Shows n ∧
      (parseStatements ⟨file, toString n.toInt⟩).clean? = some ⟨[.expr span e], whole⟩ := by
  have hadjoins : Adjoins (shownTokens n) (toString n.toInt).toList := by
    have h : Adjoins (shownTokens n ++ []) ([] ++ ((toString n.toInt).toList ++ [])) :=
      adjoins_shown hn .nil nofun (.trivia .nil)
    simpa using h
  obtain ⟨hkinds, hissues⟩ := lex_adjoining hadjoins
  obtain ⟨e, span, whole, c, hrun, hc, he⟩ := Parser.statementUnit_shown hkinds
  have hclass : classify (toString n.toInt) = .statements := by
    unfold shownTokens at hadjoins
    split at hadjoins
    all_goals
      obtain ⟨second, hclass⟩ := classify_of_adjoins hadjoins
      rw [hclass]
      rfl
  exact ⟨hclass, e, span, whole, he, clean?_of_run hissues hrun hc⟩

theorem read_declared {n : Int64} (hn : n ≠ Int64.minValue) {name : String} (hname : IsName name)
    (file : String) : classify (declarationText name (toString n.toInt)) = .statements ∧
      ∃ e x whole, e.Shows n ∧ x.Declares name e ∧
        (parseStatements ⟨file, declarationText name (toString n.toInt)⟩).clean? = some ⟨[x], whole⟩ := by
  have hadjoins : Adjoins (.keyword .varKw :: .ident name :: .symbol .assign ::
      (shownTokens n ++ [TokenKind.symbol .semicolon])) (declarationText name (toString n.toInt)).toList := by
    have hparted : ∀ cs, Parted (' ' :: cs) := fun cs => by simp [Parted, isBlank]
    have hblank : Trivia [' '] := .blank rfl .nil
    have hlast : Parted [] := by simp [Parted]
    have hsemicolon : Adjoins [.symbol .semicolon] [';'] :=
      Adjoins.written (.symbol .semicolon) [] .nil trivial hlast (.trivia .nil)
    have hends : EndsNumber [';'] := by simp [EndsNumber, Lexeme.isWordChar]
    have hvalue := adjoins_shown hn hblank hends hsemicolon
    have hassign := Adjoins.written (.symbol .assign) _ hblank trivial (hparted _) hvalue
    have hident := Adjoins.written (.ident name) _ hblank hname (hparted _) hassign
    have hvar := Adjoins.written (.keyword .varKw) _ .nil trivial (hparted _) hident
    simpa [declarationText, TokenKind.written, TokenKind.text, Keyword.text, Symbol.text] using hvar
  obtain ⟨hkinds, hissues⟩ := lex_adjoining hadjoins
  obtain ⟨e, x, whole, c, hrun, hc, he, hx⟩ := Parser.statementUnit_declared (n := n) (by simpa using hkinds)
  obtain ⟨second, hclass⟩ := classify_of_adjoins hadjoins
  exact ⟨hclass, e, x, whole, he, hx, clean?_of_run hissues hrun hc⟩

namespace Bind

variable {e : Expr} {n : Int64} {name : String} {x : Stmt}

theorem resolve_shown (h : e.Shows n) (s : BindState) :
    resolve e s = (some (.value (.const (.int n)) (Ty.ofLiterals [n])), s) := by
  cases h with
  | int span => exact (wraps_literal span n).binds s
  | neg outer inner =>
    have hbinds := (wraps_negLiteral outer inner (-n)).binds s
    simpa only [Expr.signedLiterals, Int64.neg_neg] using hbinds

theorem value_shown (h : e.Shows n) (s : BindState) :
    value e s = (some ⟨.const (.int n), Ty.ofLiterals [n]⟩, s) :=
  value_of_resolve (resolve_shown h s) (Ty.ofLiterals_ne_void _)

theorem hostStmts_shown (h : e.Shows n) (span : Span) (s : BindState) :
    hostStmts [.expr span e] s = (some [.capture (.const (.int n))], s) := by
  have hexpr : expr e s = (some ⟨.const (.int n), Ty.ofLiterals [n]⟩, s) :=
    bind_eq_of_run (resolve_shown h s)
  have hyields : yieldsResult e = true := by cases h <;> rfl
  have hhost : hostExpr true e s = (some (.capture (.const (.int n))), s) := by
    apply (bind_eq_of_run hexpr).trans
    simp only [hyields, Bool.and_self, Bool.true_and, bne_iff_ne, ne_eq, Ty.ofLiterals_ne_void,
      not_false_eq_true, if_true]
    rfl
  have hstmt : hostExprStmt true e s = (some (.capture (.const (.int n))), s) := by
    cases h <;> exact hhost
  have hlast : hostStmt true (.expr span e) s = (some [.capture (.const (.int n))], s) :=
    bind_eq_of_run (optional_of_run hstmt)
  exact (bind_eq_of_run hlast).trans rfl

/-- A variable takes the type of the shown integer that it is initialized with. -/
theorem hostStmts_declared (h : e.Shows n) (hx : x.Declares name e) (s : Session) :
    ∃ b, hostStmts [x] s.bindStart = (some [setVariable s.store.slots.size (.const (.int n))], b) ∧
      b.issues = .empty ∧ b.newVariables = [⟨name, s.store.slots.size, false⟩] ∧
      b.store = (s.store.addSlot name (Ty.ofLiterals [n])
        (s.image.defaultValue (Ty.ofLiterals [n]))).2 := by
  obtain ⟨span, type, place, ident, whole⟩ := hx
  generalize hd : (⟨⟨name, ident⟩, some e, place⟩ : Declarator) = d
  generalize hdecl : (⟨false, ⟨.infer, type⟩, [d], whole⟩ : LocalDecl) = decl
  have hne : Ty.ofLiterals [n] ≠ .null := by
    rcases Ty.ofLiterals_cases [n] with ht | ht <;> simp [ht]
  have hdeclarator : declarator decl d s.bindStart =
      (some (Ty.ofLiterals [n], some (.const (.int n))), s.bindStart) := by
    subst hdecl hd
    apply (bind_eq_of_run (value_shown h s.bindStart)).trans
    rw [if_neg hne]
    rfl
  have hvariable : ∃ b, hostVariable decl d s.bindStart =
        (some (some (setVariable s.store.slots.size (.const (.int n)))), b) ∧
      b.issues = .empty ∧ b.newVariables = [⟨name, s.store.slots.size, false⟩] ∧
      b.store = (s.store.addSlot name (Ty.ofLiterals [n])
        (s.image.defaultValue (Ty.ofLiterals [n]))).2 := by
    have hbody : body s.bindStart = (some .host, s.bindStart) := rfl
    subst hdecl hd
    refine ⟨_, (bind_eq_of_run hbody).trans (bind_eq_of_run hdeclarator), ?_⟩
    exact ⟨rfl, rfl, rfl⟩
  obtain ⟨b, hrun, hb⟩ := hvariable
  have hforAll : forAll (hostVariable decl) [d] s.bindStart =
      (some [some (some (setVariable s.store.slots.size (.const (.int n))))], b) :=
    (bind_eq_of_run (optional_of_run hrun)).trans rfl
  have hkept : keepSome (hostVariable decl) [d] s.bindStart =
      (some [some (setVariable s.store.slots.size (.const (.int n)))], b) :=
    (bind_eq_of_run hforAll).trans rfl
  have hall : hostStmt true (.declare span decl) s.bindStart =
      (some [setVariable s.store.slots.size (.const (.int n))], b) := by
    subst hdecl
    exact (bind_eq_of_run hkept).trans rfl
  exact ⟨b, (bind_eq_of_run hall).trans rfl, hb⟩

end Bind

/-- A run can start, and it is not cancelled. -/
structure Executor.Ready (e : Executor) : Prop where
  free : e.holder = none
  fresh : e.isCancelled e.issued = false

theorem System.Orderly.ready {s : System} (h : s.Orderly) (hfree : s.executor.holder = none) :
    s.executor.Ready where
  free := hfree
  fresh := by
    have hnot : s.executor.issued ∉ s.executor.cancelled := fun hmem =>
      Nat.lt_irrefl _ (h.cancelled _ hmem)
    simpa [Executor.isCancelled] using hnot

theorem Executor.Ready.start {e : Executor} (h : e.Ready) :
    ∃ started, e.start 0 = some (e.issued, started) ∧ started.isCancelled e.issued = false := by
  have hstart : e.start 0 = some (e.issued, { e with holder := some 0 }.install.2.takeOff) := by
    simp [Executor.start, acquire, h.free, install]
  exact ⟨_, hstart, h.fresh⟩

namespace Evaluator

variable {e : Evaluator} {text : String} {unit : StatementUnit} {code : Code} {b : BindState}

/-- What bounds the runs of an evaluator. -/
def limits (e : Evaluator) : RunLimits := ⟨e.settings.maxCallDepth, none, roundLimit⟩

/-- A unit that is run in a ready executor is not cancelled. -/
theorem run_of_ready (hready : e.executor.Ready) (u : CompiledUnit) {o : Machine.Outcome}
    (ho : Machine.run (e.limits.env e.session.image) e.limits.rounds e.session.store u.code = o)
    {v : Option Value} (hv : o.result = .ok v) : (e.run u).result = .ok v ∧
      (e.run u).evaluator.session = { e.session with store := o.store } := by
  obtain ⟨started, hstart, hfresh⟩ := hready.start
  have hrun : e.runWith u false =
      ⟨.ok v, { e with session := { e.session with store := o.store } }, o.out, ""⟩ := by
    simp only [limits, RunLimits.env] at ho
    simp [runWith, ho, hv]
  simp [run, runDuring, hstart, hfresh, hrun]

/-- Statements that are read and bound without a problem are compiled. -/
theorem compile_of_finished (hclass : classify text = .statements)
    (hread : (parseStatements ⟨e.settings.fileName, text⟩).clean? = some unit)
    (hbind : (Bind.statementUnit unit).finished? e.session.bindStart = some (code, b)) :
    ∃ u : CompiledUnit, u.code = code ∧
      e.compile text = ⟨.ok (.unit u), { e with session := e.session.commit b }, "", ""⟩ := by
  obtain ⟨hclean, hunit⟩ := Parsed.clean?_eq_some.mp hread
  obtain ⟨hcode, hissues⟩ := Bind.finished?_eq_some.mp hbind
  have hcompile : ∃ u : CompiledUnit, u.code = code ∧ e.session.compile ⟨e.settings.fileName, text⟩
      .statements .silent = ⟨.unit u, e.session.commit b, ""⟩ := by
    unfold Session.bindStart at hcode
    simp only [Session.compile, Session.bindParsed, hclean, hunit, Session.bind, hcode, hissues]
    exact ⟨_, rfl, rfl⟩
  obtain ⟨u, hu, hcompile⟩ := hcompile
  refine ⟨u, hu, ?_⟩
  simp only [Evaluator.compile, hclass, hcompile]

/-- Statements that are read and bound without a problem are run at once. -/
theorem evaluate_of_finished (hready : e.executor.Ready) (hclass : classify text = .statements)
    (hread : (parseStatements ⟨e.settings.fileName, text⟩).clean? = some unit)
    (hbind : (Bind.statementUnit unit).finished? e.session.bindStart = some (code, b))
    {v : Option Value} (hv : (e.session.runBound e.limits (code, b)).2.result = .ok v) :
    (e.evaluate text).result = .ok (.completed v) ∧
      (e.evaluate text).evaluator.session = (e.session.runBound e.limits (code, b)).1 := by
  obtain ⟨u, rfl, hcompile⟩ := compile_of_finished hclass hread hbind
  obtain ⟨hresult, hsession⟩ := run_of_ready (e := { e with session := e.session.commit b }) hready u rfl hv
  simp only [evaluate, evaluateWith, hcompile, hresult, hsession]
  exact ⟨rfl, rfl⟩

end Evaluator

namespace Session

variable {s : Session} {b : BindState} {n : Int64} {limits : RunLimits}

theorem runBound_shown (hlimits : limits.cancelAfter = none) (locals : Nat) :
    (s.runBound limits (⟨[.capture (.const (.int n))], locals⟩, b)).2.result = .ok (some (.int n)) := by
  obtain ⟨depth, _, rounds⟩ := limits
  obtain rfl := hlimits
  rfl

theorem runBound_declared (s : Session) (b : BindState) (n : Int64) (limits : RunLimits)
    (hlimits : limits.cancelAfter = none) (locals slot : Nat) :
    (s.runBound limits (⟨[Bind.setVariable slot (.const (.int n))], locals⟩, b)).2.result = .ok none ∧
      (s.runBound limits (⟨[Bind.setVariable slot (.const (.int n))], locals⟩, b)).1 =
        { s.commit b with store := (s.commit b).store.writeSlot slot (.int n) } := by
  obtain ⟨depth, _, rounds⟩ := limits
  obtain rfl := hlimits
  exact ⟨rfl, rfl⟩

/-- A chunk that creates one variable registers it, and no slot that it replaces is the new one. -/
theorem commit_declared (hs : s.Valid) {name : String} {t : Ty} {v : Value}
    (hvars : b.newVariables = [⟨name, s.store.slots.size, false⟩])
    (hstore : b.store = (s.store.addSlot name t v).2) :
    (s.commit b).registry.lookup name = some ⟨s.store.slots.size, false⟩ ∧
      (s.commit b).store.slots[s.store.slots.size]? = some ⟨name, t, v, false⟩ := by
  have hnames : (b.newVariables.map PendingVariable.name).Nodup := by simp [hvars]
  have hmem : ⟨name, s.store.slots.size, false⟩ ∈ b.newVariables := by simp [hvars]
  have hlookup : (s.commit b).registry.lookup name = some ⟨s.store.slots.size, false⟩ :=
    lookup_registerAll_of_mem hnames hmem
  have hfrees : frees s.registry b.newVariables s.store.slots.size = false := by
    by_contra hfrees
    obtain ⟨x, -, w, hw, hslot⟩ := frees_iff.mp (Bool.eq_true_of_not_eq_false hfrees)
    obtain ⟨_, hoffers⟩ := hs.registered _ w hw
    exact absurd hoffers.lt (by omega)
  have hnew : b.store.slots[s.store.slots.size]? = some ⟨name, t, v, false⟩ := by
    simp [hstore, Store.addSlot]
  have hslot : (s.commit b).store.slots[s.store.slots.size]? =
      if frees s.registry b.newVariables s.store.slots.size then
        (b.store.slots[s.store.slots.size]?).map Slot.freed
      else b.store.slots[s.store.slots.size]? := registerAll_slot hnames _
  rw [hfrees, if_neg Bool.false_ne_true, hnew] at hslot
  exact ⟨hlookup, hslot⟩

end Session

namespace Evaluator

variable {e : Evaluator} {n : Int64}

theorem evaluate_shown (hready : e.executor.Ready) (hn : n ≠ Int64.minValue) :
    (e.evaluate (toString n.toInt)).result = .ok (.completed (some (.int n))) := by
  obtain ⟨hclass, x, span, whole, hx, hread⟩ := read_shown hn e.settings.fileName
  have hbind : (Bind.statementUnit ⟨[.expr span x], whole⟩).finished? e.session.bindStart =
      some (⟨[.capture (.const (.int n))], 0⟩, e.session.bindStart) :=
    Session.finished_statementUnit.mpr ⟨Bind.hostStmts_shown hx span e.session.bindStart, rfl, rfl⟩
  exact (evaluate_of_finished hready hclass hread hbind (Session.runBound_shown rfl 0)).1

/-- A variable that a shown integer initializes has that value and a type by its size. -/
theorem evaluate_declared (hs : e.session.Valid) (hready : e.executor.Ready) (hn : n ≠ Int64.minValue)
    {name : String} (hname : IsName name) :
    (e.evaluate (declarationText name (toString n.toInt))).result = .ok (.completed none) ∧
      ∃ slot, (e.evaluate (declarationText name (toString n.toInt))).evaluator.session.registry.lookup name =
          some ⟨slot, false⟩ ∧
        (e.evaluate (declarationText name (toString n.toInt))).evaluator.session.store.slots[slot]? =
          some ⟨name, Ty.ofLiterals [n], .int n, false⟩ := by
  obtain ⟨hclass, x, stmt, whole, hx, hstmt, hread⟩ := read_declared hn hname e.settings.fileName
  obtain ⟨b, hrun, hissues, hvars, hstore⟩ := Bind.hostStmts_declared hx hstmt e.session
  have hclean : b.issues.hasAny = false := by rw [hissues]; rfl
  have hbind : (Bind.statementUnit ⟨[stmt], whole⟩).finished? e.session.bindStart =
      some (⟨[Bind.setVariable e.session.store.slots.size (.const (.int n))], b.body.scopes.nextSlot⟩, b) :=
    Session.finished_statementUnit.mpr ⟨hrun, hclean, rfl⟩
  obtain ⟨hresult, hafter⟩ := e.session.runBound_declared b n e.limits rfl b.body.scopes.nextSlot
    e.session.store.slots.size
  obtain ⟨hcompleted, hsession⟩ := evaluate_of_finished hready hclass hread hbind hresult
  obtain ⟨hlookup, hslot⟩ := Session.commit_declared hs hvars hstore
  rw [hsession, hafter]
  refine ⟨hcompleted, _, hlookup, ?_⟩
  simp [Store.writeSlot, Array.getElem?_modify, hslot]

/-- A text with one problem, which the lexer finds, is refused and leaves no trace. -/
theorem evaluate_of_flaw (e : Evaluator) (text : String) (i : Issue) (hclass : classify text = .statements)
    (hlex : (lex text).issues = ⟨[i], 1⟩)
    (hparse : (Parser.statementUnit (Cursor.ofTokens (lex text).tokens)).2.issues = .empty)
    (hend : i.problem.code ≠ endOfInputCode) :
    (e.evaluate text).result =
        .error (.unreadable (Diagnostics.ofIssues ⟨e.settings.fileName, text⟩ ⟨[i], 1⟩)) ∧
      (e.evaluate text).evaluator = e := by
  have hdiagnostics : (parseStatements ⟨e.settings.fileName, text⟩).diagnostics =
      Diagnostics.ofIssues ⟨e.settings.fileName, text⟩ ⟨[i], 1⟩ := by
    simp [parseStatements, parseWith, hlex, hparse, Diagnostics.mergeInSourceOrder, Diagnostics.ofIssues,
      Log.map, Log.empty, Log.pushAll, Log.push, maxErrors]
  have hpartial : (parseStatements ⟨e.settings.fileName, text⟩).isPartial = false := by
    simp only [Parsed.isPartial, hdiagnostics]
    simpa [Diagnostics.isPartialInput, Diagnostics.ofIssues, Diagnostics.first?, Log.map, Issue.diagnose,
      Diagnostic.error, Diagnostic.isUnexpectedEnd] using hend
  have hcompile : ∀ mode, ∃ messages, e.session.compile ⟨e.settings.fileName, text⟩ .statements mode =
      ⟨.unreadable (Diagnostics.ofIssues ⟨e.settings.fileName, text⟩ ⟨[i], 1⟩), e.session, messages⟩ := by
    intro mode
    have herrors : (Diagnostics.ofIssues ⟨e.settings.fileName, text⟩ ⟨[i], 1⟩).hasErrors = true := rfl
    simp [Session.compile, Session.bindParsed, hdiagnostics, hpartial, herrors, Session.refused]
  obtain ⟨_, hsilent⟩ := hcompile .silent
  obtain ⟨_, hreporting⟩ := hcompile .reporting
  simp [evaluate, evaluateWith, Evaluator.compile, hclass, hsilent, hreporting]

end Evaluator

/-- The digits of the least integer are too large, whatever stands before them. -/
def leastTooLarge (span : Span) : Log Issue := ⟨[⟨.integerTooLarge "9223372036854775808", span⟩], 1⟩

namespace History

variable {h : History} {e : Evaluator}

/-- Typing back what is shown for an integer. In every session every integer but the least one comes
back: its text completes with the integer, and a variable that is declared with the text has it as its
value and is of type int if the integer is short, of type long otherwise. The text of the least integer is
refused alone and in a declaration, since its digits are too large, and the evaluator stays as it was. -/
theorem Reachable.integers_typed_back (hr : h.Reachable) (hs : e.session = h.session)
    (hready : e.executor.Ready) (n : Int64) :
    (n ≠ Int64.minValue →
      (e.evaluate (e.session.image.display (.int n))).result = .ok (.completed (some (.int n))) ∧
      ∀ name, IsName name → ∃ reply slot v,
        e.evaluate (declarationText name (e.session.image.display (.int n))) = reply ∧
        reply.result = .ok (.completed none) ∧
        reply.evaluator.session.registry.lookup name = some ⟨slot, false⟩ ∧
        reply.evaluator.session.store.slots[slot]? = some v ∧ v.released = false ∧ v.value = .int n ∧
        (IsShort n → v.type = .int) ∧ (¬IsShort n → v.type = .long)) ∧
    (n = Int64.minValue →
      (∃ span, (e.evaluate (e.session.image.display (.int n))).result = .error (.unreadable
        (Diagnostics.ofIssues ⟨e.settings.fileName, e.session.image.display (.int n)⟩
          (leastTooLarge span)))) ∧
      (∃ span, (e.evaluate (declarationText "v" (e.session.image.display (.int n)))).result =
        .error (.unreadable (Diagnostics.ofIssues
          ⟨e.settings.fileName, declarationText "v" (e.session.image.display (.int n))⟩
            (leastTooLarge span)))) ∧
      (e.evaluate (e.session.image.display (.int n))).evaluator = e ∧
      (e.evaluate (declarationText "v" (e.session.image.display (.int n)))).evaluator = e) := by
  have hshown : e.session.image.display (.int n) = toString n.toInt := rfl
  have hvalid : e.session.Valid := hs ▸ hr.valid.session
  rw [hshown]
  constructor
  · intro hn
    refine ⟨Evaluator.evaluate_shown hready hn, fun name hname => ?_⟩
    obtain ⟨hresult, slot, hlookup, hslot⟩ := Evaluator.evaluate_declared hvalid hready hn hname
    refine ⟨_, slot, _, rfl, hresult, hlookup, hslot, rfl, rfl, fun hshort => ?_, fun hlong => ?_⟩
    · simp [Ty.ofLiterals, hshort]
    · simp [Ty.ofLiterals, hlong]
  · rintro rfl
    have halone := e.evaluate_of_flaw (toString Int64.minValue.toInt)
      ⟨.integerTooLarge "9223372036854775808", ⟨1, 2, 1, 20⟩⟩ (by decide +kernel) (by decide +kernel)
      (by decide +kernel) (by decide)
    have hdeclared := e.evaluate_of_flaw (declarationText "v" (toString Int64.minValue.toInt))
      ⟨.integerTooLarge "9223372036854775808", ⟨1, 10, 1, 28⟩⟩ (by decide +kernel) (by decide +kernel)
      (by decide +kernel) (by decide)
    exact ⟨⟨_, halone.1⟩, ⟨_, hdeclared.1⟩, halone.2, hdeclared.2⟩

/-- The least short integer comes back as an int, though its digits alone are those of a long. The least
integer of all does not come back. -/
theorem integers_typed_back_least :
    ((Evaluator.ofSettings .default).evaluate "-2147483648").result =
        .ok (.completed (some (.int (-2147483648)))) ∧
      (∃ reply slot v, (Evaluator.ofSettings .default).evaluate "var v = -2147483648;" = reply ∧
        reply.evaluator.session.registry.lookup "v" = some ⟨slot, false⟩ ∧
        reply.evaluator.session.store.slots[slot]? = some v ∧ v.type = .int) ∧
      ∃ ds, ((Evaluator.ofSettings .default).evaluate "-9223372036854775808").result =
        .error (.unreadable ds) := by
  have hname : IsName "v" := ⟨⟨'v', [], by decide, by decide, nofun⟩, by decide⟩
  obtain ⟨hshown, hdeclared⟩ := (Reachable.integers_typed_back (e := .ofSettings .default)
    (.start .default) rfl ⟨rfl, rfl⟩ (-2147483648)).1 (by decide)
  obtain ⟨reply, slot, v, hreply, -, hlookup, hslot, -, -, hint, -⟩ := hdeclared "v" hname
  obtain ⟨⟨span, hleast⟩, -⟩ := (Reachable.integers_typed_back (e := .ofSettings .default)
    (.start .default) rfl ⟨rfl, rfl⟩ Int64.minValue).2 rfl
  exact ⟨hshown, ⟨reply, slot, v, hreply, hlookup, hslot, hint (by decide)⟩, _, hleast⟩

end History

end Chunkwise
