import Chunkwise.Proofs.Parser.Decl
import Mathlib.Data.List.Permutation

namespace Chunkwise

/-- The kinds of the tokens before the end of input. -/
def sentence (tokens : List Token) : List TokenKind :=
  (tokens.map Token.kind).takeWhile (· != .endOfInput)

namespace Cursor

variable {tokens : List Token}

theorem ofTokens_rest (tokens : List Token) :
    (ofTokens tokens).rest = tokens.map Token.kind ∧
        (tokens.map Token.kind).getLast? = some TokenKind.endOfInput ∨
      (ofTokens tokens).rest = tokens.map Token.kind ++ [TokenKind.endOfInput] := by
  cases hlast : tokens.getLast? with
  | none =>
    rw [List.getLast?_eq_none_iff] at hlast
    subst hlast
    exact .inr rfl
  | some last =>
    cases tokens with
    | nil => cases hlast
    | cons t ts =>
      by_cases hend : last.kind = .endOfInput
      · refine .inl ⟨by simp [ofTokens, hlast, hend, rest], ?_⟩
        rw [List.getLast?_map, hlast, Option.map_some, hend]
      · exact .inr (by simp [ofTokens, hlast, hend, rest])

theorem ofTokens_issues (tokens : List Token) : (ofTokens tokens).issues = Log.empty := by
  unfold ofTokens
  dsimp only
  split <;> rfl

theorem ofTokens_clean (hknown : ∀ t ∈ tokens, ∀ x, t.kind ≠ .unknown x) :
    (ofTokens tokens).Clean := by
  have hkinds : ∀ x, .unknown x ∉ tokens.map Token.kind := by
    intro x hx
    obtain ⟨t, ht, hk⟩ := List.mem_map.mp hx
    exact hknown t ht x hk
  rcases ofTokens_rest tokens with ⟨hrest, hlast⟩ | hrest
  · exact ⟨by rw [hrest, hlast], by rwa [hrest]⟩
  · refine ⟨by rw [hrest, List.getLast?_concat], fun x hx => ?_⟩
    rw [hrest, List.mem_append] at hx
    rcases hx with hx | hx
    · exact hkinds x hx
    · simp at hx

theorem takeWhile_ofTokens (tokens : List Token) :
    (ofTokens tokens).rest.takeWhile (· != .endOfInput) = sentence tokens := by
  rcases ofTokens_rest tokens with ⟨hrest, -⟩ | hrest
  · rw [hrest, sentence]
  · rw [hrest, sentence, List.takeWhile_append]
    split
    · next hall =>
      have hself := (List.takeWhile_prefix _).eq_of_length hall
      rw [hself, List.takeWhile_cons_of_neg (by simp), List.append_nil]
    · rfl

theorem Passes.takeWhile {c c' : Cursor} {w : List TokenKind} (h : c.Passes w c')
    (hend : c'.atEnd = true) : c.rest.takeWhile (· != .endOfInput) = w := by
  have hstop : c'.rest.takeWhile (· != .endOfInput) = [] := by
    have hkind : c'.current.kind = .endOfInput := eq_of_beq hend
    rw [Cursor.rest, hkind, List.takeWhile_cons_of_neg (by simp)]
  have hall : ∀ k ∈ w, (k != .endOfInput) = true := by
    intro k hk
    exact bne_iff_ne.mpr fun heq => h.inside (heq ▸ hk)
  rw [h.rest, List.takeWhile_append_of_pos hall, hstop, List.append_nil]

end Cursor

namespace Parser

/-- A parser that reads to the end of input reads the whole sentence. -/
theorem Parses.whole {α : Type} {p : Parser α} {G : α → Language TokenKind}
    (h : Parses (fun _ => 1) p fun a c =>
      {w | w ∈ G a ∧ (c.atEnd = true ∨ c.issues.isFull = true)})
    {tokens : List Token} (hknown : ∀ t ∈ tokens, ∀ x, t.kind ≠ .unknown x)
    (hquiet : (p (Cursor.ofTokens tokens)).2.issues.total = 0) :
    ∃ a, (p (Cursor.ofTokens tokens)).1 = some a ∧ sentence tokens ∈ G a := by
  have hstart : (Cursor.ofTokens tokens).issues.total = 0 := by
    rw [Cursor.ofTokens_issues, Log.empty]
  obtain ⟨-, hread⟩ := h _ (Cursor.ofTokens_clean hknown)
  obtain ⟨a, v, ha, hv, hmem, hend⟩ := hread [] rfl (by rw [hquiet, hstart])
  have hnotFull : ¬ (p (Cursor.ofTokens tokens)).2.issues.isFull = true := by
    simp [Log.isFull, hquiet, maxErrors]
  have hsentence := hv.takeWhile (hend.resolve_right hnotFull)
  rw [Cursor.takeWhile_ofTokens] at hsentence
  exact ⟨a, ha, hsentence ▸ hmem⟩

/-- Tokens that are read without an issue are a sentence of the tree that is returned, be they read as
statements or as declarations. -/
theorem accepted_in_grammar (tokens : List Token) (hknown : ∀ t ∈ tokens, ∀ x, t.kind ≠ .unknown x) :
    ((statementUnit (Cursor.ofTokens tokens)).2.issues.total = 0 →
      ∃ u, (statementUnit (Cursor.ofTokens tokens)).1 = some u ∧
        sentence tokens ∈ Grammar.statementUnit u) ∧
    ((declarationUnit (Cursor.ofTokens tokens)).2.issues.total = 0 →
      ∃ u, (declarationUnit (Cursor.ofTokens tokens)).1 = some u ∧
        sentence tokens ∈ Grammar.declarationUnit u) :=
  ⟨statementUnit_parses.whole hknown, declarationUnit_parses.whole hknown⟩

/-- Tokens that all stand at one place. -/
def tokensOf (kinds : List TokenKind) : List Token := kinds.map (⟨·, .point 1 1⟩)

/-- A class with something before it and something inside. -/
def classTokens (before inside : List TokenKind) : List Token :=
  tokensOf (before ++ [TokenKind.keyword .classKw, .ident "C", .symbol .openBrace] ++ inside ++
    [TokenKind.symbol .closeBrace])

def fieldKinds : List TokenKind := [.keyword .intKw, .ident "x", .symbol .semicolon]

def attributeKinds (name : String) : List TokenKind :=
  [.symbol .openBracket, .ident name, .symbol .closeBracket]

/-- A loop and an expression after it. -/
def loopTokens : List Token :=
  tokensOf [.keyword .whileKw, .symbol .openParen, .ident "b", .symbol .closeParen, .ident "f",
    .symbol .openParen, .symbol .closeParen, .symbol .semicolon, .ident "x"]

theorem accepted_in_grammar_loop :
    (∃ u, (statementUnit (Cursor.ofTokens loopTokens)).1 = some u ∧
      sentence loopTokens ∈ Grammar.statementUnit u) ∧
    ∃ u, (declarationUnit (Cursor.ofTokens (classTokens [] fieldKinds))).1 = some u ∧
      sentence (classTokens [] fieldKinds) ∈ Grammar.declarationUnit u :=
  ⟨(accepted_in_grammar loopTokens (by simp [loopTokens, tokensOf])).1 (by decide +kernel),
    (accepted_in_grammar (classTokens [] fieldKinds) (by simp [classTokens, fieldKinds, tokensOf])).2
      (by decide +kernel)⟩

/-- Two token lists that are read without an issue and give the same tree. -/
def SameTree (tokens tokens' : List Token) : Prop :=
  (declarationUnit (Cursor.ofTokens tokens)).2.issues.total = 0 ∧
    (declarationUnit (Cursor.ofTokens tokens')).2.issues.total = 0 ∧
    (declarationUnit (Cursor.ofTokens tokens)).1 = (declarationUnit (Cursor.ofTokens tokens')).1

/-- The tree of a field does not tell whether an attribute stood before it, and the tree of a class does
not tell how its attributes were grouped. -/
theorem attributes_unrecorded :
    (SameTree (classTokens [] (attributeKinds "A" ++ fieldKinds)) (classTokens [] fieldKinds) ∧
      sentence (classTokens [] (attributeKinds "A" ++ fieldKinds)) ≠
        sentence (classTokens [] fieldKinds)) ∧
    SameTree (classTokens (attributeKinds "A" ++ attributeKinds "B") [])
        (classTokens [.symbol .openBracket, .ident "A", .symbol .comma, .ident "B",
          .symbol .closeBracket] []) ∧
      sentence (classTokens (attributeKinds "A" ++ attributeKinds "B") []) ≠
        sentence (classTokens [.symbol .openBracket, .ident "A", .symbol .comma, .ident "B",
          .symbol .closeBracket] []) :=
  ⟨⟨⟨by decide +kernel, by decide +kernel, by cbv⟩, by decide⟩,
    ⟨by decide +kernel, by decide +kernel, by cbv⟩, by decide⟩

end Parser

end Chunkwise
