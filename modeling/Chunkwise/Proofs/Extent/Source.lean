import Chunkwise.Parser.Chunk
import Chunkwise.Proofs.Extent.Decl
import Chunkwise.Proofs.Token.Partition

/-!
The tokens of a text are in order, each within one line and before the place where the text after it
begins. So what is read from a text is a nested tree, whatever was reported and dropped on the way.
-/
namespace Chunkwise

/-- The position that follows a text. -/
def placeAfter (before : List Char) : Nat ×ₗ Nat := toLex (lineAfter before, columnAfter before)

theorem placeAfter_lt_concat (before : List Char) (c : Char) :
    placeAfter before < placeAfter (before ++ [c]) := by
  rw [placeAfter, placeAfter, Prod.Lex.toLex_lt_toLex]
  by_cases hc : c = '\n'
  · left
    simp [lineAfter, hc]
  · right
    simp [lineAfter, columnAfter, lastLine_concat before hc, hc]

theorem placeAfter_le_append (before letters : List Char) :
    placeAfter before ≤ placeAfter (before ++ letters) := by
  induction letters using List.reverseRecOn with
  | nil => rw [List.append_nil]
  | append_singleton letters c ih =>
    rw [← List.append_assoc]
    exact ih.trans (placeAfter_lt_concat _ c).le

section Covers

variable {s : Span} {before letters : List Char}

theorem Span.Covers.first_eq (h : s.Covers before letters) : s.first = placeAfter before := by
  rw [first, h.startLine, h.startCol, placeAfter]

theorem Span.Covers.last_lt (h : s.Covers before letters) (hunbroken : '\n' ∉ letters) :
    s.last < placeAfter (before ++ letters) := by
  have hstart : 0 < columnAfter before := Nat.succ_pos _
  rw [last, h.endLine, h.endCol, placeAfter, lineAfter_append before hunbroken,
    columnAfter_append before hunbroken, Prod.Lex.toLex_lt_toLex]
  right
  exact ⟨rfl, by dsimp only; omega⟩

theorem Span.Covers.proper (h : s.Covers before letters) (hne : letters ≠ []) : s.first ≤ s.last := by
  have hpos := List.length_pos_iff.mpr hne
  rw [first, last, h.startLine, h.startCol, h.endLine, h.endCol, Prod.Lex.toLex_le_toLex]
  right
  exact ⟨rfl, by dsimp only; omega⟩

end Covers

theorem point_first {before : List Char} (h : Counted before) :
    (Span.point (lineAfter before) (columnAfter before)).first = placeAfter before := by
  obtain ⟨hline, hcolumn⟩ := h
  rw [Span.first, Span.point, UInt32.toNat_ofNat_of_lt' hline, UInt32.toNat_ofNat_of_lt' hcolumn,
    placeAfter]

/-- Tokens in order: none of them begins before the position. -/
structure Orderly (start : Nat ×ₗ Nat) (ts : List Token) : Prop where
  starts : ∀ t ∈ ts, start ≤ t.span.first
  proper : ∀ t ∈ ts, t.span.first ≤ t.span.last
  apart : ts.Pairwise fun t u => t.span.Before u.span

theorem Orderly.cons {start next : Nat ×ₗ Nat} {t : Token} {ts : List Token} (h : Orderly next ts)
    (hfirst : start ≤ t.span.first) (hproper : t.span.first ≤ t.span.last)
    (hlast : t.span.last < next) : Orderly start (t :: ts) := by
  have hbefore : ∀ u ∈ ts, t.span.Before u.span := fun u hu => hlast.trans_le (h.starts u hu)
  refine ⟨?_, ?_, .cons hbefore h.apart⟩
  · exact List.forall_mem_cons.mpr
      ⟨hfirst, fun u hu => hfirst.trans (hproper.trans (hbefore u hu).le)⟩
  · exact List.forall_mem_cons.mpr ⟨hproper, h.proper⟩

namespace Partition

variable {stopped : Prop} {before rest : List Char} {ts : List Token}

theorem script (h : Partition stopped before rest ts) : ∃ T : Script, T.tokens = ts := by
  induction h with
  | stop _ _ => exact ⟨⟨[], _, rfl, by simp⟩, rfl⟩
  | token _ hat _ ih =>
    obtain ⟨T, rfl⟩ := ih
    exact ⟨⟨_ :: T.body, T.stop, T.stop_ends, List.forall_mem_cons.mpr ⟨hat.kind, T.body_goes⟩⟩, rfl⟩

theorem orderly (h : Partition stopped before rest ts)
    (hcounted : ∀ cs, cs <+: rest → Counted (before ++ cs)) : Orderly (placeAfter before) ts := by
  induction h with
  | @stop before g unread _ _ =>
    have hfirst := point_first (hcounted g (List.prefix_append _ _))
    refine ⟨?_, ?_, List.pairwise_singleton _ _⟩
    · simpa [hfirst] using placeAfter_le_append before g
    · simp [Span.point, Span.first, Span.last]
  | @token before g letters rest t ts _ hat _ ih =>
    have hbehind : Counted (before ++ g ++ letters) := by
      rw [List.append_assoc]
      exact hcounted _ (List.prefix_append _ _)
    have hrest := ih fun cs hcs => by
      rw [List.append_assoc, List.append_assoc, ← List.append_assoc g]
      exact hcounted _ ((List.prefix_append_right_inj _).mpr hcs)
    have hspan := hat.span hbehind
    have hfirst : placeAfter before ≤ t.span.first :=
      hspan.first_eq ▸ placeAfter_le_append before g
    exact hrest.cons hfirst (hspan.proper hat.nonempty) (hspan.last_lt hat.unbroken)

end Partition

namespace Script

variable {T : Script}

theorem getElem?_tokens {i : Nat} (h : i ≤ T.body.length) : T.tokens[i]? = some (T.token i) := by
  have hdrop := drop_tokens h
  rw [← List.head?_drop, hdrop, List.head?_cons]

theorem token_mem (i : Nat) : T.token i ∈ T.tokens := by
  unfold token tokens
  cases hi : T.body[i]? with
  | none => simp
  | some t => simp [List.mem_of_getElem? hi]

theorem Tidy.of_orderly {start : Nat ×ₗ Nat} (h : Orderly start T.tokens) : T.Tidy where
  proper i := h.proper _ (token_mem i)
  before i j hij hj := by
    have hi := getElem?_tokens (T := T) (i := i) (by omega)
    have hj := getElem?_tokens hj
    obtain ⟨hi', hti⟩ := List.getElem?_eq_some_iff.mp hi
    obtain ⟨hj', htj⟩ := List.getElem?_eq_some_iff.mp hj
    have hbefore := List.pairwise_iff_getElem.mp h.apart i j hi' hj' hij
    rwa [hti, htj] at hbefore

end Script

/-- What is lexed is read as a whole: a parser that is never given up from the first token on yields a
value. -/
theorem exists_of_goes {α : Type} {p : Parser α} {P : α → Prop} (src : Source)
    (h : ∀ T : Script, Parser.Goes T False 0 p fun a _ => T.Tidy → P a) :
    ∃ a, (parseWith p src).unit = some a ∧ (Numbered src.text.toList → P a) := by
  have hpartition := (Lexer.ofText_partition src.text).2
  obtain ⟨T, htokens⟩ := hpartition.script
  have htidy (hnumbered : Numbered src.text.toList) : T.Tidy :=
    .of_orderly (htokens ▸ hpartition.orderly hnumbered)
  have hlands := h T (Cursor.ofTokens T.tokens) (Cursor.At.start T)
  have hrun : (parseWith p src).unit = (p (Cursor.ofTokens T.tokens)).1 := by rw [parseWith, htokens]
  rw [hrun]
  cases hlands' : p (Cursor.ofTokens T.tokens) with
  | mk a? c =>
    rw [hlands'] at hlands
    cases hlands with
    | yields _ _ ha => exact ⟨_, rfl, fun hnumbered => ha (htidy hnumbered)⟩
    | givesUp hE => exact hE.elim

/-- Whatever is reported about a text, both ways of reading it yield a unit. If the places in the text
are counted, every node in the tree of the unit lies within its parent and the children of a node stand
one after the other. -/
theorem spans_nested (src : Source) :
    (∃ u, (parseStatements src).unit = some u ∧ (Numbered src.text.toList → u.spanTree.Nested)) ∧
      ∃ u, (parseDeclarations src).unit = some u ∧
        (Numbered src.text.toList → u.spanTree.Nested) :=
  ⟨exists_of_goes src fun _ => Parser.statementUnit_goes,
    exists_of_goes src fun _ => Parser.declarationUnit_goes⟩

/-- In the tree of a short call the arguments stand apart. -/
theorem spans_nested_call : Numbered "f(x, y)".toList ∧
    ∃ u, (parseStatements ⟨"test", "f(x, y)"⟩).unit = some u ∧ u.spanTree.Nested := by
  have hnumbered : Numbered "f(x, y)".toList := numbered_of_length (by decide)
  obtain ⟨u, hu, hnested⟩ := (spans_nested ⟨"test", "f(x, y)"⟩).1
  exact ⟨hnumbered, u, hu, hnested hnumbered⟩

/-- The span of one character of the first line. -/
def Span.column (col : UInt32) : Span := Position.spanTo ⟨1, col⟩ ⟨1, col + 1⟩

/-- A call whose arguments stand far apart. -/
def spreadCall (n : Nat) : Source :=
  ⟨"test", String.ofList ('f' :: '(' :: 'x' :: ',' :: (List.replicate n ' ' ++ ['y', ')']))⟩

theorem spreadCall_length (n : Nat) : (spreadCall n).text.length = n + 6 := by
  rw [spreadCall, String.length_ofList]
  simp only [List.length_cons, List.length_append, List.length_replicate, List.length_nil]

theorem tokens_call (limit : Nat) (cs : List Char) :
    (Lexer.tokens (limit + 4) ⟨'f' :: '(' :: 'x' :: ',' :: cs, ⟨1, 1⟩, Log.empty⟩).1 =
      [⟨.ident "f", .column 1⟩, ⟨.symbol .openParen, .column 2⟩, ⟨.ident "x", .column 3⟩,
        ⟨.symbol .comma, .column 4⟩] ++ (Lexer.tokens limit ⟨cs, ⟨1, 5⟩, Log.empty⟩).1 := by
  rfl

theorem tokens_argument (limit n : Nat) : (Lexer.tokens (limit + 3)
    ⟨List.replicate n ' ' ++ ['y', ')'], ⟨1, 5⟩, Log.empty⟩).1 =
      [⟨.ident "y", .column (5 + UInt32.ofNat n)⟩,
        ⟨.symbol .closeParen, .column (5 + UInt32.ofNat n + 1)⟩,
        ⟨.endOfInput, .point 1 (5 + UInt32.ofNat n + 1 + 1)⟩] := by
  have hnext := Lexer.next_of_settled
    (l := ⟨List.replicate n ' ' ++ ['y', ')'], ⟨1, 5⟩, Log.empty⟩) rfl (trivia_blanks n)
    ⟨by decide, nofun⟩ rfl
  rw [Position.after_blanks] at hnext
  rw [Lexer.tokens, hnext]
  rfl

theorem lex_spreadCall (n : Nat) : (lex (spreadCall n).text).tokens =
    [⟨.ident "f", .column 1⟩, ⟨.symbol .openParen, .column 2⟩, ⟨.ident "x", .column 3⟩,
      ⟨.symbol .comma, .column 4⟩, ⟨.ident "y", .column (5 + UInt32.ofNat n)⟩,
      ⟨.symbol .closeParen, .column (5 + UInt32.ofNat n + 1)⟩,
      ⟨.endOfInput, .point 1 (5 + UInt32.ofNat n + 1 + 1)⟩] := by
  have hstart : Lexer.ofText (spreadCall n).text =
      ⟨'f' :: '(' :: 'x' :: ',' :: (List.replicate n ' ' ++ ['y', ')']), ⟨1, 1⟩, Log.empty⟩ := by
    rw [Lexer.ofText, spreadCall, String.toList_ofList]
  rw [lex, spreadCall_length, hstart]
  exact (tokens_call (n + 3) _).trans (congrArg _ (tokens_argument n n))

/-- With `2 ^ 32 - 2` blanks between them the second argument is given the span of the first one. -/
theorem arguments_coincide : (spreadCall 4294967294).text.length = 4294967300 ∧
    ∃ u, (parseStatements (spreadCall 4294967294)).unit = some u ∧
      u.spanTree = .node ⟨1, 1, 1, 4⟩ [.node ⟨1, 1, 1, 4⟩ [.node ⟨1, 1, 1, 4⟩
        [.node ⟨1, 1, 1, 1⟩ [], .node ⟨1, 3, 1, 3⟩ [], .node ⟨1, 3, 1, 3⟩ []]]] ∧
      ¬ u.spanTree.Nested := by
  have htree : (parseStatements (spreadCall 4294967294)).unit.map StatementUnit.spanTree =
      some (.node ⟨1, 1, 1, 4⟩ [.node ⟨1, 1, 1, 4⟩ [.node ⟨1, 1, 1, 4⟩
        [.node ⟨1, 1, 1, 1⟩ [], .node ⟨1, 3, 1, 3⟩ [], .node ⟨1, 3, 1, 3⟩ []]]]) := by
    rw [parseStatements, parseWith, lex_spreadCall]
    rfl
  obtain ⟨u, hu, hspans⟩ := Option.map_eq_some_iff.mp htree
  refine ⟨spreadCall_length _, u, hu, hspans, fun h => ?_⟩
  rw [hspans] at h
  have hcall := (h.child (List.mem_singleton_self _)).child (List.mem_singleton_self _)
  have hbefore := List.pairwise_pair.mp (List.pairwise_cons.mp hcall.apart).2
  exact lt_irrefl _ hbefore

end Chunkwise
