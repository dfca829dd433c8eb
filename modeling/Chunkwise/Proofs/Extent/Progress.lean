import Chunkwise.Proofs.Extent.Limit

/-!
Every list of tokens with the end of input as its last token is parsed to its end, or until there are too
many errors. The loops over statements, members and using directives end by themselves, since each round
that goes on passes a token, and no limit on nesting or on recovery ends anything else.
-/
namespace Chunkwise

open Attempt

/-- The input has ended, or there are too many errors. -/
def Cursor.Ended (c : Cursor) : Prop := c.atEnd = true ∨ c.issues.isFull = true

namespace Parser

open Script

variable {T : Script} {i : Nat} {α β : Type}

theorem triple_any (p : Parser α) : Triple (fun _ => True) p (fun _ _ => True) fun _ => True := by
  intro c _
  rcases p c with ⟨_ | a, c'⟩ <;> exact trivial

/-- A round that looks for the end and for too many errors first, and else goes on. -/
theorem guarded_ends (a : α) {p : Parser (β ⊕ α)}
    (hp : Triple (fun _ => True) p (fun r _ => r.isLeft = true) fun _ => True) :
    Triple (fun _ => True) (do
      if ← atEnd then return .inr a
      if ← tooManyErrors then return .inr a
      p) (fun r c => r.isRight = true → c.Ended) fun _ => True := by
  apply Triple.bind (Q := fun ended c => ended = c.atEnd) (Triple.gets fun _ _ => rfl)
  intro ended
  split
  next hended => exact Triple.pure fun c hc _ => .inl (hc.symm.trans hended)
  next =>
    apply Triple.bind (Q := fun full c => full = c.issues.isFull) (Triple.gets fun _ _ => rfl)
    intro full
    split
    next hfull => exact Triple.pure fun c hc _ => .inr (hc.symm.trans hfull)
    next =>
      apply hp.mono (fun _ _ => trivial) _ fun _ => id
      intro r c hleft hright
      cases r with
      | inl b => cases hright
      | inr a => cases hleft

theorem resume_goesOn (before : Span) (as : List α) :
    Triple (fun _ => True) (resume before as) (fun r _ => r.isLeft = true) fun _ => True := by
  apply Triple.bind (triple_any synchronize)
  intro _
  apply Triple.bind (triple_any currentSpan)
  intro span
  apply Triple.bind (triple_any atEnd)
  intro ended
  split
  · apply Triple.bind (triple_any advance)
    exact fun _ => Triple.pure fun _ _ => rfl
  · exact Triple.pure fun _ _ => rfl

theorem statementRound_ends (stmts : List Stmt) : Triple (fun _ => True) (statementRound stmts)
    (fun r c => r.isRight = true → c.Ended) fun _ => True := by
  apply guarded_ends stmts
  apply Triple.bind (triple_any (Attempt.gets Cursor.remaining))
  intro left
  apply Triple.bind (triple_any (Attempt.optional (statement true)))
  intro s?
  cases s? with
  | some s =>
    apply Triple.bind (triple_any (ensureProgress left))
    exact fun _ => Triple.pure fun _ _ => rfl
  | none =>
    apply Triple.bind (triple_any synchronize)
    intro _
    apply Triple.bind (triple_any (ensureProgress left))
    exact fun _ => Triple.pure fun _ _ => rfl

theorem elementRound_ends (element : Parser α) (as : List α) :
    Triple (fun _ => True) (elementRound (memberStop true) element as)
      (fun r c => r.isRight = true → c.Ended) fun _ => True := by
  apply guarded_ends as
  apply Triple.bind (triple_any currentSpan)
  intro before
  apply Triple.bind (triple_any (Attempt.optional element))
  intro a?
  cases a? with
  | some a => exact Triple.pure fun _ _ => rfl
  | none => exact resume_goesOn before as

/-- A loop all of whose rounds stop it at the end only ends there. -/
theorem Marches.ended {step : β → Parser (β ⊕ α)} {b : β} {c c' : Cursor} {a : α}
    (h : Marches T step b c (some a) c') (hstep : ∀ b, Triple (fun _ => True) (step b)
      (fun r c => r.isRight = true → c.Ended) fun _ => True) : c'.Ended := by
  obtain ⟨b', c'', hrun⟩ := h.last
  exact (hstep b').of_run trivial hrun rfl

/-- Wherever it is entered, the loop goes through its rounds and ends by itself. -/
def RunsBy (T : Script) (p : Parser (List α)) (step : List α → Parser (List α ⊕ List α)) : Prop :=
  ∀ i c, c.At T i → Marches T step [] c (p c).1 (p c).2

theorem Appends.runsBy {E : Prop} {step : List α → Parser (List α ⊕ List α)} {tree : α → SpanTree}
    (h : Appends T E step tree) : RunsBy T (Parser.repeatFrom step []) step :=
  fun i c hc => (h i).advances [] i c hc

/-- The loops inside one name, expression, statement or declaration. Those inside an expression take their
operands at any level of nesting, and those over the operators of one level have any levels above it. -/
structure InnerLoopsAdvance (T : Script) : Prop where
  name : Advances T nameStep
  left : ∀ room ops, ∀ levels : List (List (Symbol × BinaryOp)),
    Advances T (leftStep ops (levels.foldr leftLevel (unaryWithin room)))
  coalesce : ∀ room, Advances T (coalesceStep (leftOperators (unaryWithin room)))
  argument : ∀ room, Advances T (argumentStep (expressionWithin room))
  suffix : ∀ room, Advances T (postfixStep (expressionWithin room))
  expression : Advances T expressionRound
  declarator : Advances T declaratorRound
  attributeName : Advances T attributeRound
  attributeGroup : Advances T groupRound
  modifier : Advances T modifierRound
  base : ∀ kind, Advances T (baseRound kind)
  param : Advances T paramRound
  enumMember : Advances T enumMemberRound

theorem innerLoops_advance (T : Script) : InnerLoopsAdvance T where
  name := (nameStep_keeps 0).advances
  left room ops levels := (leftStep_keeps ops (leftLevels_builds levels (within_builds room).2) 0).advances
  coalesce room :=
    (coalesceStep_keeps (leftLevels_builds leftLevels (within_builds room).2) 0 (.null (.point 1 1))).advances
  argument room := (argumentStep_appends (within_builds room).1 0).advances
  suffix room := (postfixStep_keeps (within_builds room).1 0).advances
  expression := (expressionRound_keeps 0).advances
  declarator := (declaratorRound_keeps 0).advances
  attributeName := (attributeRound_appends 0).advances
  attributeGroup := (groupRound_appends 0).advances
  modifier := modifierRound_keeps.advances
  base kind := (baseRound_appends kind 0).advances
  param := (paramRound_appends 0).advances
  enumMember := (enumMemberRound_appends 0).advances

theorem namespaceRound_appends (limit : Nat) (topLevel : Bool) : Appends T False
    (elementRound (memberStop topLevel) (namespaceMember (namespaceMembers limit false)))
      NamespaceMember.spanTree :=
  elementRound_appends (memberStop_goes topLevel)
    (namespaceMember_builds fun i => (namespaceMembers_goes limit false i).permit fun _ => trivial)

theorem Goes.exists_run {p : Parser α} {B : α → Nat → Prop} (h : Goes T False i p B) {c : Cursor}
    (hc : c.At T i) : ∃ a c' j, p c = (some a, c') ∧ c'.At T j := by
  have hlands := h c hc
  generalize p c = r at hlands
  cases hlands with
  | yields _ hc' _ => exact ⟨_, _, _, rfl, hc'⟩
  | givesUp hE => exact hE.elim

theorem statementUnit_ends (T : Script) : ∃ u c,
    statementUnit (Cursor.ofTokens T.tokens) = (some u, c) ∧ c.Ended ∧
      Marches T statementRound [] (Cursor.ofTokens T.tokens) (some u.stmts) c := by
  have hstart := Cursor.At.start T
  obtain ⟨stmts, c, j, hrun, -⟩ := statementRound_appends.repeatFrom.exists_run hstart
  have hmarch := statementRound_appends.runsBy 0 _ hstart
  rw [hrun] at hmarch
  obtain ⟨span, hunit⟩ : ∃ span, statementUnit (Cursor.ofTokens T.tokens) = (some ⟨stmts, span⟩, c) := by
    rw [statementUnit, bind_eq_of_run (currentSpan_run _), bind_eq_of_run hrun]
    exact ⟨_, rfl⟩
  exact ⟨_, c, hunit, hmarch.ended statementRound_ends, hmarch⟩

theorem declarationUnit_ends (T : Script) : ∃ u mid c limit,
    declarationUnit (Cursor.ofTokens T.tokens) = (some u, c) ∧ c.Ended ∧
      Marches T usingRound [] (Cursor.ofTokens T.tokens) (some u.usings) mid ∧
      Marches T (elementRound (memberStop true) (namespaceMember (namespaceMembers limit false))) [] mid
        (some u.members) c := by
  have hstart := Cursor.At.start T
  obtain ⟨us, mid, j, hrun, hmid⟩ := usingRound_appends.repeatFrom.exists_run hstart
  have husings := usingRound_appends.runsBy 0 _ hstart
  rw [hrun] at husings
  obtain ⟨limit, hlimit⟩ : ∃ limit, mid.remaining = limit + 1 := ⟨mid.later.length, rfl⟩
  obtain ⟨ms, c, k, hrun', -⟩ := (namespaceRound_appends limit true).repeatFrom.exists_run hmid
  have hmarch := (namespaceRound_appends limit true).runsBy j mid hmid
  rw [hrun'] at hmarch
  have hmembers : namespaceMembers mid.remaining true mid = (some ms, c) := by
    rw [hlimit]
    exact hrun'
  have hleft : Attempt.gets Cursor.remaining mid = (some mid.remaining, mid) := rfl
  obtain ⟨span, hunit⟩ : ∃ span,
      declarationUnit (Cursor.ofTokens T.tokens) = (some ⟨us, ms, span⟩, c) := by
    rw [declarationUnit, usingDirectives, bind_eq_of_run (currentSpan_run _), bind_eq_of_run hrun,
      bind_eq_of_run hleft, bind_eq_of_run hmembers]
    exact ⟨_, rfl⟩
  exact ⟨_, mid, c, limit, hunit, hmarch.ended (elementRound_ends _), husings, hmarch⟩

/-- Whatever the tokens are, as long as the last one and no other is the end of input, both ways of
reading them yield a unit, and they end at the end of the input or with too many errors. Every round of
their loops, and of the loops inside what they read, stands at tokens of the script, and one after which
the loop goes on has passed a token. The limits on nesting and on recovery make no difference as long as
they are no less than the number of tokens left, which is what they are. -/
theorem parsing_ends (T : Script) :
    (∃ u c, statementUnit (Cursor.ofTokens T.tokens) = (some u, c) ∧ c.Ended ∧
      Marches T statementRound [] (Cursor.ofTokens T.tokens) (some u.stmts) c) ∧
    (∃ u mid c limit, declarationUnit (Cursor.ofTokens T.tokens) = (some u, c) ∧ c.Ended ∧
      Marches T usingRound [] (Cursor.ofTokens T.tokens) (some u.usings) mid ∧
      Marches T (elementRound (memberStop true) (namespaceMember (namespaceMembers limit false))) [] mid
        (some u.members) c) ∧
    (∀ room, RunsBy T (elements (checkSymbol .closeBrace) (statementWithin room false))
      (elementRound (checkSymbol .closeBrace) (statementWithin room false))) ∧
    (∀ limit, RunsBy T (namespaceMembers (limit + 1) false)
      (elementRound (checkSymbol .closeBrace) (namespaceMember (namespaceMembers limit false)))) ∧
    (∀ limit owner, RunsBy T (memberList (typeAfterModifiers limit) owner)
      (memberRound (typeAfterModifiers limit) owner)) ∧
    InnerLoopsAdvance T ∧
    ∀ i c limit, c.At T i → c.remaining ≤ limit →
      (∀ topLevel, namespaceMembers limit topLevel c = namespaceMembers c.remaining topLevel c) ∧
      (∀ start attrs mods, typeAfterModifiers limit start attrs mods c =
        typeAfterModifiers c.remaining start attrs mods c) ∧
      ∀ depth moved, synchronizeFrom limit depth moved c = synchronizeFrom c.remaining depth moved c := by
  have hblocks : ∀ room, RunsBy T (elements (checkSymbol .closeBrace) (statementWithin room false))
      (elementRound (checkSymbol .closeBrace) (statementWithin room false)) := fun room =>
    (elementRound_appends (fun _ => checkSymbol_goes .closeBrace) (statementWithin_builds room false)).runsBy
  have hmembers : ∀ limit owner, RunsBy T (memberList (typeAfterModifiers limit) owner)
      (memberRound (typeAfterModifiers limit) owner) := fun limit owner =>
    (memberRound_appends (typeAfterModifiers_builds limit) owner).runsBy
  refine ⟨statementUnit_ends T, declarationUnit_ends T, hblocks, fun limit =>
    (namespaceRound_appends limit false).runsBy, hmembers, innerLoops_advance T, ?_⟩
  intro i c limit hc hlimit
  have hleft := hc.remaining
  have hspaces : ∀ topLevel, namespaceMembers limit topLevel c =
      namespaceMembers c.remaining topLevel c := fun topLevel =>
    namespaceMembers_agree limit c.remaining topLevel (by omega) (by omega) c hc
  have htypes : ∀ start attrs mods, typeAfterModifiers limit start attrs mods c =
      typeAfterModifiers c.remaining start attrs mods c := fun start attrs mods =>
    typeAfterModifiers_agree limit c.remaining (by omega) (by omega) i (Nat.le_refl i) start attrs mods c
      hc
  exact ⟨hspaces, htypes, fun depth moved =>
    synchronizeFrom_agree limit c.remaining depth moved hc hlimit (Nat.le_refl _)⟩

/-- Tokens that make no sense, all of them at one place: `} # ( {`. -/
def jumble : Script where
  body := [.symbol .closeBrace, .unknown '#', .symbol .openParen, .symbol .openBrace].map fun k =>
    ⟨k, .point 1 1⟩
  stop := ⟨.endOfInput, .point 1 1⟩
  stop_ends := rfl
  body_goes := by simp

theorem parsing_ends_jumble :
    (∃ u c, statementUnit (Cursor.ofTokens jumble.tokens) = (some u, c) ∧ c.Ended) ∧
    (∃ u c, declarationUnit (Cursor.ofTokens jumble.tokens) = (some u, c) ∧ c.Ended) ∧
    namespaceMembers 100 true (Cursor.ofTokens jumble.tokens) =
      namespaceMembers 5 true (Cursor.ofTokens jumble.tokens) := by
  obtain ⟨⟨u, c, hrun, hended, -⟩, ⟨u', -, c', -, hrun', hended', -⟩, -, -, -, -, hlimits⟩ :=
    parsing_ends jumble
  have hlimit := hlimits 0 _ 100 (Cursor.At.start jumble) (by decide)
  exact ⟨⟨u, c, hrun, hended⟩, ⟨u', c', hrun', hended'⟩, hlimit.1 true⟩

end Parser

end Chunkwise
