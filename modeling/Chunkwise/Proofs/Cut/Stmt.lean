import Chunkwise.Parser.Stmt
import Chunkwise.Proofs.Cut.Expr

/-!
Every parser of statements runs in step with itself up to a cut. Whether a statement declares a
variable may depend on tokens beyond the cut; then a dotted name stands before it, and the run over
the shorter text takes it for an expression.
-/
namespace Chunkwise

theorem Dangling.nameFollows {rest : List Token} (h : Dangling rest) {stop : Token}
    (hstop : stop.kind = .endOfInput) :
    Parser.nameFollows ((rest ++ [stop]).map Token.kind) = false := by
  induction h with
  | nil => simp [Parser.nameFollows, hstop]
  | dot ht => simp [Parser.nameFollows, ht, hstop]
  | part ht hu _ ih => simpa [Parser.nameFollows, ht, hu] using ih

theorem nameFollows_of_ne_dot {k : TokenKind} (h : k ≠ .symbol .dot) (ks : List TokenKind) :
    Parser.nameFollows (k :: ks) = k.isIdent := by
  cases k with
  | symbol s => cases s <;> first | rfl | exact absurd rfl h
  | _ => rfl

/-- What follows the cut decides only about a dotted name that stops there. -/
theorem nameFollows_cut {stop : Token} (hstop : stop.kind = .endOfInput) (lost : List Token) :
    ∀ rest : List Token, Dangling rest ∨
      Parser.nameFollows ((rest ++ [stop]).map Token.kind) =
        Parser.nameFollows ((rest ++ lost).map Token.kind)
  | [] => .inl .nil
  | [t] => by
    by_cases hdot : t.kind = .symbol .dot
    · exact .inl (.dot hdot)
    · exact .inr (by simp [nameFollows_of_ne_dot hdot])
  | t :: u :: rest => by
    by_cases hdot : t.kind = .symbol .dot
    · cases hu : u.kind with
      | ident name =>
        rcases nameFollows_cut hstop lost rest with hrest | hrest
        · exact .inl (.part hdot hu hrest)
        · exact .inr (by simpa [Parser.nameFollows, hdot, hu] using hrest)
      | _ => exact .inr (by simp [Parser.nameFollows, hdot, hu])
    · exact .inr (by simp [nameFollows_of_ne_dot hdot])

namespace Parser

variable {α β : Type} {K : Cut} {e : Bool} {n : Nat} {A : List Token → Prop}
  {C : β → List Token → Prop}

/-- What `startsLocal` looks at. -/
def localAhead (c : Cursor) : Bool :=
  if c.current.kind == .keyword .constKw then true
  else if c.current.kind.namesType then (c.ahead 1).isIdent
  else c.current.kind.isIdent && nameFollows (c.later.map Token.kind)

theorem startsLocal_eq : startsLocal = Attempt.gets localAhead := by
  funext c
  cases hconst : c.current.kind == .keyword .constKw <;>
    simp only [startsLocal, checkKeyword, check, looksLikeLocal, localAhead, Attempt.gets, Bind.bind,
      Attempt.bind, Pure.pure, Attempt.pure, hconst, if_true, Bool.false_eq_true, if_false]

theorem localAhead_cut {t : Token} {w : List Token} {c d : Cursor} (hat : K.At (t :: w) c d) :
    localAhead d = localAhead c ∨ localAhead d = false ∧ K.Dotted d := by
  unfold localAhead
  rw [hat.current, hat.current', hat.later, hat.later']
  by_cases hconst : (t.kind == .keyword .constKw) = true
  · exact .inl (by rw [if_pos hconst, if_pos hconst])
  rw [if_neg hconst, if_neg hconst]
  by_cases htype : t.kind.namesType = true
  · rw [if_pos htype, if_pos htype]
    cases w with
    | nil =>
      have hlast := K.untyped t (by rw [hat.getLast?, List.getLast?_singleton]; rfl)
      rw [htype] at hlast
      cases hlast
    | cons u w => exact .inl (by simp [Cursor.ahead, hat.later, hat.later'])
  rw [if_neg htype, if_neg htype]
  cases ht : t.kind with
  | ident name =>
    rcases nameFollows_cut K.stop_ends K.lost w with hw | hw
    · refine .inr ⟨by rw [hw.nameFollows K.stop_ends, Bool.and_false], ⟨name, ?_⟩, ⟨w, hat.later', hw⟩,
        hat.quiet'⟩
      rw [hat.current', ht]
    · exact .inl (by rw [hw])
  | _ => exact .inl rfl

theorem localAhead_spent {d : Cursor} (hd : K.Spent d) : localAhead d = false := by
  simp [localAhead, hd.kind, TokenKind.namesType, TokenKind.isIdent]

theorem startsLocal_tracks {p q : Parser β} (hp : Tracks K A e p p C) (hq : Tracks K A e q q C)
    (hidle : A [] → Idles K e q (C · []))
    (hdotted : ∀ t w, A (t :: w) → ∀ d, K.Dotted d → Finishes K e q (C · []) d) :
    Tracks K A e (do if ← startsLocal then p else q) (do if ← startsLocal then p else q) C := by
  rw [startsLocal_eq]
  apply Tracks.ahead_then hp hq
  intro w c d hat hw
  cases w with
  | nil => exact .inr ⟨localAhead_spent hat.spent, hidle hw d hat.spent⟩
  | cons t w =>
    rcases localAhead_cut hat with hsame | ⟨hfalse, hd⟩
    · exact .inl ⟨hsame, fun _ => hw⟩
    · exact .inr ⟨hfalse, hdotted t w hw d hd⟩

theorem startsLocal_rests {p q : Parser β} {S : β → Prop} (hq : Idles K e q S) :
    Idles K e (do if ← startsLocal then p else q) S := by
  rw [startsLocal_eq]
  apply (Idles.gets (R := (· = false)) fun _ => localAhead_spent).bind
  intro _ found hfound
  rw [hfound]
  exact hq

theorem initializer_loose : Loose K true initializer := by
  intro n
  apply Tracks.eat_then (by simp)
  · apply expression_operand.strict.loose.past.bind
    · exact fun value => Tracks.pure fun _ => Nat.le_of_lt
    · exact fun _ value _ => Idles.pure (Nat.zero_le n)
  · exact Tracks.pure fun _ => id
  · exact fun _ => Idles.pure (Nat.zero_le n)

theorem initializer_rests : Idles K true initializer fun _ => True :=
  Idles.eat_then (by simp) (Idles.pure trivial)

theorem declarators_loose : Loose K true declarators := by
  apply Steps.repeatFrom
  · intro n ds
    apply (identifier_strict n).next
    intro name
    apply (initializer_loose.below n).bind
    · intro init
      apply Tracks.span
      intro span
      apply Tracks.eat_then (by simp)
      · exact Tracks.pure fun _ => after_below
      · exact Tracks.pure fun _ => Nat.le_of_lt
      · exact fun _ => Idles.pure (Nat.zero_le n)
    · intro _ init _
      apply Idles.span
      exact fun span => Idles.eat_then (by simp) (Idles.pure (Nat.zero_le n))
  · exact fun _ ds => Idles.identifier.andThen

theorem declarators_stops : Idles K e declarators fun _ => True :=
  Idles.repeatFrom (fun _ => Idles.identifier.andThen) []

theorem localDecl_strict : Strict K true localDecl := by
  intro n
  apply Tracks.here
  · intro start
    have hrest : ∀ isConst, Strict K true (do
        let type ← typeRef
        let names ← declarators
        return ⟨isConst, type, names, ← spanFrom start⟩ : Parser LocalDecl) := by
      intro isConst
      apply typeRef_strict.bind
      · intro type
        apply declarators_loose.bind
        · exact fun names n => Tracks.span fun _ => Tracks.pure fun _ => id
        · exact fun _ names => Idles.span fun _ => Idles.pure trivial
      · exact fun _ type => declarators_stops.andThen
    exact (eat_loose (by simp)).strict hrest (fun _ isConst => typeRef_stops.andThen) n
  · intro _ start
    apply (Idles.eat (by simp)).bind
    exact fun _ isConst _ => typeRef_stops.andThen

theorem elements_rests {f : Cursor → Bool} (element : Parser α) :
    Idles K true (elements (Attempt.gets f) element) fun _ => True := by
  apply Idles.repeatFrom
  intro as
  apply Idles.look
  intro stopped
  cases stopped with
  | true => exact Idles.pure rfl
  | false => exact Idles.atEnd_then (Idles.pure rfl)

/-- Once an element has been given up, the parse resumes further on. -/
theorem resume_adds (before : Span) (as : List α) : Adds (do
    synchronize
    let moved := (← currentSpan) != before
    if !moved && !(← atEnd) then advance
    return .inl as : Parser (List α ⊕ List α)) := by
  apply Adds.synchronize.bind
  intro _
  apply (Adds.gets _).bind
  intro span
  apply (Adds.gets _).bind
  intro ended
  split
  · exact Adds.advance.bind fun _ => Adds.pure _
  · exact Adds.pure _

theorem elements_adds {stop : Parser Bool} {element : Parser α} (hstop : Adds stop) (h : Adds element) :
    Adds (elements stop element) := by
  intro c
  apply Adds.loop
  intro as
  apply hstop.bind
  intro stopped
  split
  · exact Adds.pure _
  apply (Adds.gets _).bind
  intro ended
  split
  · exact Adds.pure _
  apply (Adds.gets _).bind
  intro full
  split
  · exact Adds.pure _
  apply (Adds.gets _).bind
  intro before
  apply h.optional.bind
  intro a?
  cases a? with
  | some a => exact Adds.pure _
  | none => exact resume_adds before as

theorem elements_tracks {f : Cursor → Bool} {element element' : Parser α}
    (hsame : ∀ {t w c d}, K.At (t :: w) c d → f d = f c)
    (h : ∀ m ≤ n, Tracks K (upTo m) true element element' fun _ => below m) :
    Tracks K (upTo n) true (elements (Attempt.gets f) element) (elements (Attempt.gets f) element')
      fun _ => upTo n := by
  apply Tracks.repeatFrom
  · intro m hm as
    apply Tracks.see (D := fun _ => upTo m) hsame fun _ hw => hw
    · intro stopped
      cases stopped with
      | true => exact Tracks.pure fun _ => id
      | false =>
        apply Tracks.atEnd_then
        · exact Tracks.pure fun _ => id
        · apply Tracks.tooManyErrors_then
          · exact Tracks.pure fun _ hw => hw.1
          apply Tracks.here _ fun hnil => absurd rfl hnil.2
          intro before
          apply ((h m hm).mono (fun _ hw => hw.1) id fun _ _ => id).optional.bind
          · intro a?
            cases a? with
            | some a => exact Tracks.pure fun _ => id
            | none => exact Tracks.recover (resume_adds before as) (resume_adds before as)
          · intro _ a? ha
            cases a? with
            | some a => exact Idles.pure ha
            | none => exact ha.elim
        · exact fun _ => Idles.pure (Nat.zero_le m)
    · intro _ d _
      cases f d with
      | true => exact Idles.pure (Nat.zero_le m)
      | false => exact Idles.atEnd_then (Idles.pure (Nat.zero_le m))
  · intro _ as
    apply Idles.look
    intro stopped
    cases stopped with
    | true => exact Idles.pure rfl
    | false => exact Idles.atEnd_then (Idles.pure rfl)

variable {inner : Parser Stmt}

theorem block_strict (h : Strict K true inner) : Strict K false (block inner) := by
  intro n
  apply Tracks.here
  · intro start
    apply (expect_strict (by simp) n).next
    intro _
    have helements : Loose K true (elements (checkSymbol .closeBrace) inner) := fun n =>
      elements_tracks (fun hat => by rw [hat.current, hat.current']) fun m _ => h m
    apply (helements.below n).bind
    · intro stmts
      apply ((expect_strict (by simp)).loose.below n).next
      exact fun _ => Tracks.span fun _ => Tracks.pure fun _ => id
    · exact fun _ stmts _ => (Idles.expect (by simp)).andThen
  · exact fun _ start => (Idles.expect (by simp)).andThen

theorem condition_strict : Strict K false condition := by
  apply (expect_strict (by simp)).next
  intro _
  apply expression_operand.strict.loose.bind
  · exact fun test => (expect_strict (by simp)).loose.next fun _ => Loose.pure test
  · exact fun _ test => (Idles.expect (by simp)).andThen

theorem expressionList_strict : Strict K true expressionList := by
  apply expression_operand.strict.bind
  · intro first
    apply Steps.repeatFrom
    · intro n es
      apply Tracks.eat_then (by simp)
      · apply expression_operand.strict.loose.past.bind
        · exact fun next => Tracks.pure fun _ => id
        · exact fun _ next hn => Idles.pure hn
      · exact Tracks.pure fun _ => id
      · exact fun _ => Idles.pure (Nat.zero_le n)
    · exact fun _ es => Idles.eat_then (by simp) (Idles.pure rfl)
  · exact fun _ first => Idles.repeatFrom (fun es => Idles.eat_then (by simp) (Idles.pure rfl)) _

theorem expressionList_stops : Idles K e expressionList fun _ => True :=
  expression_operand.stops.andThen

theorem expressionList_dotted {d : Cursor} (hd : K.Dotted d) :
    Finishes K true expressionList (fun _ => True) d := by
  apply (expression_operand.dotted d hd).bind
  exact fun _ first _ =>
    Idles.repeatFrom (fun es => Idles.eat_then (by simp) (Idles.pure rfl)) _

theorem expressionUnless_loose {s : Symbol} : Loose K true (expressionUnless s) := by
  intro n
  apply Tracks.check_then (by simp)
  · exact Tracks.anywhere (Tracks.pure fun _ => id)
  · apply (expression_operand.strict n).bind
    · exact fun value => Tracks.pure fun _ => Nat.le_of_lt
    · exact fun _ value _ => Idles.pure (Nat.zero_le n)
  · exact fun _ => expression_operand.stops.andThen

theorem led_tracks {k : TokenKind} (hk : k ≠ .endOfInput) {g : Span → Parser β}
    (h : ∀ start, Tracks K (after K k A) e (g start) (g start) C) :
    Tracks K (starts k A) e (do let start ← currentSpan; advance; g start)
      (do let start ← currentSpan; advance; g start) C := by
  apply Tracks.here
  · exact fun start => (Tracks.advance hk).next fun _ => h start
  · exact fun hnil => absurd hnil (not_starts_nil _ _)

variable {k : TokenKind}

theorem ifStmt_tracks (hk : k ≠ .endOfInput) (h : Strict K true inner) :
    Tracks K (starts k (upTo n)) true (ifStmt inner) (ifStmt inner) fun _ => below n := by
  apply led_tracks hk
  intro start
  apply condition_strict.loose.past.next
  intro test
  apply (h.loose.below n).bind
  · intro yes
    apply Tracks.eat_then (by simp)
    · apply ((h.loose.below n).mono (fun _ => after_below) id fun _ _ => id).bind
      · exact fun no => Tracks.span fun _ => Tracks.pure fun _ => id
      · exact fun _ no hn => Idles.span fun _ => Idles.pure hn
    · exact Tracks.span fun _ => Tracks.pure fun _ => id
    · exact fun hn => Idles.span fun _ => Idles.pure hn
  · exact fun _ yes hn => Idles.eat_then (by simp) (Idles.span fun _ => Idles.pure hn)

theorem whileStmt_tracks (hk : k ≠ .endOfInput) (h : Strict K true inner) :
    Tracks K (starts k (upTo n)) true (whileStmt inner) (whileStmt inner) fun _ => below n := by
  apply led_tracks hk
  intro start
  apply condition_strict.loose.past.next
  intro test
  apply (h.loose.below n).bind
  · exact fun body => Tracks.span fun _ => Tracks.pure fun _ => id
  · exact fun _ body hn => Idles.span fun _ => Idles.pure hn

theorem doStmt_tracks (hk : k ≠ .endOfInput) (h : Strict K true inner) :
    Tracks K (starts k (upTo n)) true (doStmt inner) (doStmt inner) fun _ => below n := by
  apply led_tracks hk
  intro start
  apply h.loose.past.bind
  · intro body
    apply ((expect_strict (by simp)).loose.below n).next
    intro _
    apply (condition_strict.loose.below n).next
    intro test
    apply ((expect_strict (by simp)).loose.below n).next
    exact fun _ => Tracks.span fun _ => Tracks.pure fun _ => id
  · exact fun _ body _ => (Idles.expect (by simp)).andThen

theorem forInit_loose : Loose K true forInit := by
  intro n
  apply Tracks.check_then (by simp)
  · exact Tracks.anywhere (Tracks.pure fun _ => id)
  · apply startsLocal_tracks
    · apply (localDecl_strict n).bind
      · exact fun decl => Tracks.pure fun _ => Nat.le_of_lt
      · exact fun _ decl _ => Idles.pure (Nat.zero_le n)
    · apply (expressionList_strict n).bind
      · exact fun es => Tracks.pure fun _ => Nat.le_of_lt
      · exact fun _ es _ => Idles.pure (Nat.zero_le n)
    · exact fun _ => expressionList_stops.andThen
    · intro t w _ d hd
      apply (expressionList_dotted hd).bind
      exact fun _ es _ => Idles.pure (Nat.zero_le n)
  · exact fun _ => startsLocal_rests expressionList_stops.andThen

theorem forStmt_tracks (hk : k ≠ .endOfInput) (h : Strict K true inner) :
    Tracks K (starts k (upTo n)) true (forStmt inner) (forStmt inner) fun _ => below n := by
  have hsemicolon : Strict K false (expectSymbol .semicolon) := expect_strict (by simp)
  apply led_tracks hk
  intro start
  apply (expect_strict (by simp)).loose.past.next
  intro _
  apply (forInit_loose.below n).bind _ fun _ init _ => (Idles.expect (by simp)).andThen
  intro init
  apply (hsemicolon.loose.below n).next
  intro _
  apply (expressionUnless_loose.below n).bind _ fun _ test _ => (Idles.expect (by simp)).andThen
  intro test
  apply (hsemicolon.loose.below n).next
  intro _
  -- what follows the updates, whether there are any or not
  have hbody : ∀ update, Loose K true (do
      expectSymbol .closeParen
      let body ← inner
      return .forLoop (← spanFrom start) init test update body : Parser Stmt) := by
    intro update
    apply (expect_strict (by simp)).loose.next
    intro _
    apply h.loose.bind
    · exact fun body _ => Tracks.span fun _ => Tracks.pure fun _ => id
    · exact fun _ body => Idles.span fun _ => Idles.pure trivial
  apply Tracks.check_then (by simp)
  · exact Tracks.anywhere ((hbody []).below n)
  · apply (expressionList_strict.loose.below n).bind
    · exact fun update => (hbody update).below n
    · exact fun _ update _ => (Idles.expect (by simp)).andThen
  · exact fun _ => expressionList_stops.andThen

theorem jump_tracks (hk : k ≠ .endOfInput) (make : Span → Stmt) :
    Tracks K (starts k (upTo n)) true (jump make) (jump make) fun _ => below n := by
  apply led_tracks hk
  intro start
  apply (expect_strict (by simp)).loose.past.next
  exact fun _ => Tracks.span fun _ => Tracks.pure fun _ => id

theorem jumpWith_tracks (hk : k ≠ .endOfInput) (make : Span → Option Expr → Stmt) :
    Tracks K (starts k (upTo n)) true (jumpWith make) (jumpWith make) fun _ => below n := by
  apply led_tracks hk
  intro start
  apply expressionUnless_loose.past.bind
  · intro value
    apply ((expect_strict (by simp)).loose.below n).next
    exact fun _ => Tracks.span fun _ => Tracks.pure fun _ => id
  · exact fun _ value _ => (Idles.expect (by simp)).andThen

theorem declareStmt_strict : Strict K true declareStmt := by
  apply localDecl_strict.bind
  · intro decl
    apply (expect_strict (by simp)).loose.next
    exact fun _ _ => Tracks.span fun _ => Tracks.pure fun _ => id
  · exact fun _ decl => (Idles.expect (by simp)).andThen

/-- After an expression, the end of a chunk asks for nothing, and any other place for a semicolon. -/
theorem semicolon_rests (topLevel ended : Bool) (x : Expr) : Idles K true (do
    if !(topLevel && ended) then expectSymbol .semicolon
    return .expr (← spanFrom x.span) x : Parser Stmt) fun _ => True := by
  split
  · exact (Idles.expect (by simp)).andThen
  · exact Idles.span fun _ => Idles.pure trivial

theorem semicolon_loose (topLevel ended : Bool) (x : Expr) : Loose K true (do
    if !(topLevel && ended) then expectSymbol .semicolon
    return .expr (← spanFrom x.span) x : Parser Stmt) := by
  split
  · exact (expect_strict (by simp)).loose.next fun _ _ => Tracks.span fun _ => Tracks.pure fun _ => id
  · exact fun _ => Tracks.span fun _ => Tracks.pure fun _ => id

theorem ending_rests (topLevel : Bool) (x : Expr) : Idles K true (do
    if !(← eatSymbol .semicolon) then
      if !(topLevel && (← atEnd)) then expectSymbol .semicolon
    return .expr (← spanFrom x.span) x : Parser Stmt) fun _ => True := by
  apply (Idles.eat (by simp)).bind
  intro _ closed hclosed
  rw [hclosed]
  exact Idles.look fun ended => semicolon_rests topLevel ended x

theorem expressionStmt_strict (topLevel : Bool) : Strict K true (expressionStmt topLevel) := by
  apply expression_operand.strict.bind _ fun _ => ending_rests topLevel
  intro x
  apply (eat_loose (by simp)).bind
  · intro closed n
    cases closed with
    | true => exact Tracks.span fun _ => Tracks.pure fun _ => id
    | false =>
      apply Tracks.see (D := fun _ => upTo n) _ (fun _ hw => hw)
      · exact fun ended => semicolon_loose topLevel ended x n
      · exact fun _ _ _ => (semicolon_rests topLevel _ x).mono id fun _ _ => Nat.zero_le n
      · intro t w c d hat
        rw [Cursor.atEnd, Cursor.atEnd, hat.current, hat.current']
  · intro _ closed
    cases closed with
    | true => exact Idles.span fun _ => Idles.pure trivial
    | false => exact Idles.look fun ended => semicolon_rests topLevel ended x

theorem expressionStmt_stops (topLevel : Bool) : Idles K e (expressionStmt topLevel) fun _ => True :=
  expression_operand.stops.andThen

theorem expressionStmt_dotted (topLevel : Bool) {d : Cursor} (hd : K.Dotted d) :
    Finishes K true (expressionStmt topLevel) (fun _ => True) d :=
  (expression_operand.dotted d hd).bind fun _ x _ => ending_rests topLevel x

theorem statementWith_strict (h : Strict K true inner) (topLevel : Bool) :
    Strict K true (statementWith inner topLevel) := by
  have hstops : Idles K false (do
      if ← startsLocal then declareStmt
      else expressionStmt topLevel) fun _ => True := startsLocal_rests (expressionStmt_stops topLevel)
  intro n
  apply Tracks.here _ fun _ _ => Idles.peek hstops.stops
  intro start
  apply Tracks.peek _ fun _ => hstops.stops
  intro k
  split
  · apply Tracks.anywhere
    exact (block_strict h n).next fun b => Tracks.pure fun _ => id
  · exact (Tracks.advance (by simp)).next fun _ => Tracks.pure fun _ => after_upTo
  · exact ifStmt_tracks (by simp) h
  · exact whileStmt_tracks (by simp) h
  · exact doStmt_tracks (by simp) h
  · exact forStmt_tracks (by simp) h
  · exact jump_tracks (by simp) _
  · exact jump_tracks (by simp) _
  · exact jumpWith_tracks (by simp) _
  · exact jumpWith_tracks (by simp) _
  · apply Tracks.anywhere
    apply startsLocal_tracks
    · exact declareStmt_strict n
    · exact expressionStmt_strict topLevel n
    · exact fun _ => (expressionStmt_stops topLevel).stops
    · intro t w hw d hd
      exact (expressionStmt_dotted topLevel hd).mono id fun _ _ =>
        Nat.lt_of_lt_of_le (Nat.zero_lt_succ _) hw

theorem statementWithin_strict (room : Nat) (topLevel : Bool) :
    Strict K true (statementWithin room topLevel) := by
  induction room generalizing topLevel with
  | zero => exact tooDeep_strict _
  | succ room ih => exact statementWith_strict (ih false) topLevel

theorem body_strict : Strict K false body := block_strict (statementWithin_strict _ _)

theorem ensureProgress_adds (left : Nat) : Adds (ensureProgress left) := by
  apply Adds.modify
  intro c
  split
  · exact c.advance_issues
  · rfl

theorem ensureProgress_tracks (m : Nat) :
    Tracks K (below m) false (ensureProgress (m + K.lost.length)) (ensureProgress (m + 1))
      fun _ => below m where
  adds := ensureProgress_adds _
  adds' := ensureProgress_adds _
  run w c d hat hw _ := by
    have hlt : w.length < m := hw
    have hmoved : c.remaining ≠ m + K.lost.length := by
      rw [hat.remaining]
      omega
    have hmoved' : d.remaining ≠ m + 1 := by
      rw [hat.remaining']
      omega
    have hrun : ensureProgress (m + K.lost.length) c = (some (), c) := by
      rw [ensureProgress, Attempt.modify, if_neg hmoved]
    have hrun' : ensureProgress (m + 1) d = (some (), d) := by
      rw [ensureProgress, Attempt.modify, if_neg hmoved']
    rw [hrun, hrun']
    exact .inStep hat hw

theorem ensureProgress_rests (left : Nat) : Idles K true (ensureProgress left) fun _ => True := by
  intro d hd
  have hrun : ensureProgress left d = (some (), d) := by
    rw [ensureProgress, Attempt.modify, hd.advance, ite_self]
  exact .inr ⟨rfl, (), d, hrun, hd, trivial⟩

/-- What becomes of a statement that was read, and of one that was given up. -/
def keepStatement (left : Nat) (stmts : List Stmt) : Option Stmt → Parser (List Stmt ⊕ List Stmt)
  | some s => do
    ensureProgress left
    return .inl (stmts ++ [s])
  | none => do
    synchronize
    ensureProgress left
    return .inl stmts

theorem keepStatement_adds (left : Nat) (stmts : List Stmt) (s? : Option Stmt) :
    Adds (keepStatement left stmts s?) := by
  cases s? with
  | some s => exact (ensureProgress_adds left).bind fun _ => Adds.pure _
  | none => exact Adds.synchronize.bind fun _ => (ensureProgress_adds left).bind fun _ => Adds.pure _

theorem statementRound_steps : Steps K true statementRound := by
  intro n stmts
  apply Tracks.atEnd_then
  · exact Tracks.pure fun _ => id
  · apply Tracks.tooManyErrors_then
    · exact Tracks.pure fun _ hw => hw.1
    have hadds : ∀ left, Adds (Attempt.optional (statement true) >>= keepStatement left stmts) :=
      fun left => (statementWithin_strict (K := K) _ true 0).adds.optional.bind
        (keepStatement_adds left stmts)
    apply Tracks.remaining hadds hadds
    intro w hw
    have hread : Tracks K (· = w) true (statement true) (statement true) fun _ => below w.length :=
      (statementWithin_strict _ true w.length).mono (fun _ heq => Nat.le_of_eq (congrArg _ heq)) id
        fun _ _ => id
    apply hread.optional.bind
    · intro s?
      cases s? with
      | some s =>
        apply (ensureProgress_tracks w.length).next
        exact fun _ => Tracks.pure fun _ hlt => Nat.lt_of_lt_of_le hlt hw.1
      | none => exact Tracks.recover (keepStatement_adds _ stmts none) (keepStatement_adds _ stmts none)
    · intro _ s? hs
      cases s? with
      | some s =>
        apply (ensureProgress_rests _).bind
        exact fun _ _ _ => Idles.pure (Nat.lt_of_lt_of_le hs hw.1)
      | none => exact hs.elim
  · exact fun _ => Idles.pure (Nat.zero_le n)

theorem statementRound_rests (stmts : List Stmt) :
    Idles K true (statementRound stmts) (·.isRight = true) := Idles.atEnd_then (Idles.pure rfl)

theorem statementUnit_rests : Idles K true statementUnit fun _ => True := by
  rw [statementUnit]
  apply Idles.look
  intro start
  apply (Idles.repeatFrom statementRound_rests []).bind
  exact fun _ stmts _ => Idles.span fun _ => Idles.pure trivial

theorem statementUnit_loose : Loose K true statementUnit := by
  have hrest : ∀ start, Loose K true (do
      let stmts ← repeatFrom statementRound []
      return ⟨stmts, ← spanFrom start⟩ : Parser StatementUnit) := by
    intro start
    apply (statementRound_steps.repeatFrom (fun _ => statementRound_rests) []).bind
    · exact fun stmts _ => Tracks.span fun _ => Tracks.pure fun _ => id
    · exact fun _ stmts => Idles.span fun _ => Idles.pure trivial
  intro n
  rw [statementUnit]
  apply Tracks.here
  · exact fun start => hrest start n
  · intro _ start
    apply (Idles.repeatFrom statementRound_rests []).bind
    exact fun _ stmts _ => Idles.span fun _ => Idles.pure (Nat.zero_le n)

end Parser

end Chunkwise
