import Chunkwise.Proofs.Cut.Decl
import Chunkwise.Proofs.Parser.Sentence

/-!
A text that is accepted may be typed in pieces. Cut after any token but the word of a type, it is
accepted as it is, or the first thing reported is that it stops too early. There is one exception: right
after the parenthesis that opens a list of arguments, the nesting limit is checked before the end of
input, so where an argument would be nested too deep, that is reported instead.
-/
namespace Chunkwise

theorem Log.head?_pushAll {α : Type} (l : Log α) (as : List α) {a : α} (h : l.stored.head? = some a) :
    (l.pushAll as).stored.head? = some a := by
  induction as generalizing l with
  | nil => exact h
  | cons b as ih =>
    apply ih
    simp only [push]
    split
    · rw [List.head?_append, h, Option.some_or]
    · exact h

/-- A list of tokens is taken as it is if its last token is an end of input, and else gets one. -/
theorem Cursor.ofTokens_tokens (before : List Token) (last : Token) :
    (ofTokens (before ++ [last])).tokens =
      before ++ [last] ++ if last.kind = .endOfInput then [] else [⟨.endOfInput, last.span⟩] := by
  unfold ofTokens
  rw [List.getLast?_concat]
  by_cases hend : last.kind = .endOfInput
  · cases before <;> simp [hend, tokens]
  · cases before <;> simp [hend, tokens]

/-- The tokens of a cursor are those given, and an end of input if there was none. -/
theorem Cursor.ofTokens_closed (tokens : List Token) : ∃ extra, (∀ t ∈ extra, t.kind = .endOfInput) ∧
    (ofTokens tokens).tokens = tokens ++ extra ∧
      ∃ t ∈ (tokens ++ extra).getLast?, t.kind = .endOfInput := by
  rcases List.eq_nil_or_concat tokens with rfl | ⟨before, last, rfl⟩
  · exact ⟨[⟨.endOfInput, .point 1 1⟩], by simp, rfl, _, rfl, rfl⟩
  rw [List.concat_eq_append, ofTokens_tokens]
  by_cases hend : last.kind = .endOfInput
  · exact ⟨[], by simp, by rw [if_pos hend], last, by simp, hend⟩
  · exact ⟨[⟨.endOfInput, last.span⟩], by simp, by rw [if_neg hend], _,
      by rw [List.getLast?_concat]; rfl, rfl⟩

theorem Cursor.ofTokens_prior (tokens : List Token) : (ofTokens tokens).prior = none := by
  unfold ofTokens
  dsimp only
  split <;> rfl

namespace Parser

/-- How a text may be reported that stops after the tokens `p`: not at all, or first of all, at the end
of input, as incomplete, or else, after an opening parenthesis, as nested too deep. -/
def Continuable (p : List Token) (stop : Token) (issues : Log Issue) : Prop :=
  issues.total = 0 ∨ ∃ first ∈ issues.stored.head?, first.span = stop.span ∧
    (first.problem.code = endOfInputCode ∨
      first.problem = .nestingLimit .expression maxNesting ∧
        ∃ t ∈ p.getLast?, t.kind = .symbol .openParen)

variable {α : Type} {K : Cut}

theorem Outcome.continuable {e : Bool} {B : α → List Token → Prop} {r r' : Option α × Cursor}
    (h : Outcome K e B r r') : Continuable K.kept K.stop r'.2.issues := by
  cases h with
  | inStep hat _ => exact .inl (congrArg Log.total hat.quiet')
  | ended _ hspent _ => exact .inl (congrArg Log.total hspent.quiet)
  | broken hbroken =>
    obtain ⟨i, is, hexcused, his⟩ := hbroken
    refine .inr ⟨i, ?_, hexcused.place, ?_⟩
    · rw [his]
      exact Log.head?_pushAll (Log.empty.push i) is rfl
    · rcases hexcused.cause with ⟨what, hwhat⟩ | hdeep
      · exact .inl (by rw [hwhat]; rfl)
      · exact .inr hdeep

/-- A parser that is in step with itself up to every cut, and rests at the cut, accepts a beginning of
what it accepts or asks for more. -/
theorem Loose.continuable {unit : Parser α} (hloose : ∀ K : Cut, Loose K true unit)
    (hrests : ∀ K : Cut, Idles K true unit fun _ => True) {tokens p : List Token}
    (hknown : ∀ t ∈ tokens, ∀ x, t.kind ≠ .unknown x) (hbegins : p <+: tokens)
    (hlast : ∀ t ∈ p.getLast?, t.kind.namesType = false) {stop : Token}
    (hstop : stop.kind = .endOfInput)
    (hquiet : (unit (Cursor.ofTokens tokens)).2.issues.total = 0) :
    Continuable p stop (unit (Cursor.ofTokens (p ++ [stop]))).2.issues := by
  obtain ⟨lost, rfl⟩ := hbegins
  obtain ⟨extra, hextra, htokens, hends⟩ := Cursor.ofTokens_closed (p ++ lost)
  rw [List.append_assoc] at htokens hends
  have hwhole : ∀ t ∈ p ++ (lost ++ extra), ∀ x, t.kind ≠ .unknown x := by
    intro t ht x hx
    rw [← List.append_assoc] at ht
    rcases List.mem_append.mp ht with ht | ht
    · exact hknown t ht x hx
    · rw [hextra t ht] at hx
      cases hx
  let K : Cut := ⟨p, lost ++ extra, stop, hstop, hends, hwhole, hlast⟩
  have hstart := Cursor.ofTokens_issues (p ++ lost)
  have hstart' := Cursor.ofTokens_issues (p ++ [stop])
  have hshort : (Cursor.ofTokens (p ++ [stop])).tokens = p ++ [stop] := by
    rw [Cursor.ofTokens_tokens, if_pos hstop, List.append_nil]
  by_cases hp : p = []
  · subst hp
    have hspent : K.Spent (Cursor.ofTokens ([] ++ [stop])) := ⟨hshort, hstart'⟩
    exact (Finishes.outcome (B := fun _ _ => True) (r := unit (Cursor.ofTokens lost))
      (hrests K _ hspent)).continuable
  · have hat : K.At p (Cursor.ofTokens (p ++ lost)) (Cursor.ofTokens (p ++ [stop])) := by
      constructor
      · exact htokens
      · exact hshort
      · exact List.suffix_refl p
      · rw [Cursor.ofTokens_prior, Cursor.ofTokens_prior]
      · exact fun hnil => absurd hnil hp
      · exact hstart
      · exact hstart'
    have hempty : (unit (Cursor.ofTokens (p ++ lost))).2.issues = Log.empty := by
      obtain ⟨is, his⟩ := (hloose K 0).adds (Cursor.ofTokens (p ++ lost))
      rw [his, hstart, Log.pushAll_total] at hquiet
      have hnil : is = [] := List.eq_nil_of_length_eq_zero (Nat.eq_zero_of_add_eq_zero_left hquiet)
      rw [his, hstart, hnil]
      rfl
    exact ((hloose K p.length).run p _ _ hat (Nat.le_refl _) hempty).continuable

/-- A beginning of tokens that are read without an issue, be they read as statements or as declarations,
is read without an issue, or the first issue says that the text stops too early. Only after an opening
parenthesis may it say instead that an expression would be nested too deep. -/
theorem beginning_continuable {tokens p : List Token}
    (hknown : ∀ t ∈ tokens, ∀ x, t.kind ≠ .unknown x) (hbegins : p <+: tokens)
    (hlast : ∀ t ∈ p.getLast?, t.kind.namesType = false) {stop : Token}
    (hstop : stop.kind = .endOfInput) :
    ((statementUnit (Cursor.ofTokens tokens)).2.issues.total = 0 →
      Continuable p stop (statementUnit (Cursor.ofTokens (p ++ [stop]))).2.issues) ∧
    ((declarationUnit (Cursor.ofTokens tokens)).2.issues.total = 0 →
      Continuable p stop (declarationUnit (Cursor.ofTokens (p ++ [stop]))).2.issues) :=
  ⟨Loose.continuable (fun _ => statementUnit_loose) (fun _ => statementUnit_rests) hknown hbegins hlast
      hstop,
    Loose.continuable (fun _ => declarationUnit_loose) (fun _ => declarationUnit_rests) hknown hbegins
      hlast hstop⟩

theorem beginning_continuable_call :
    ((statementUnit (Cursor.ofTokens loopTokens)).2.issues.total = 0 ∧
      Continuable (loopTokens.take 6) ⟨.endOfInput, .point 1 1⟩
        (statementUnit (Cursor.ofTokens (loopTokens.take 6 ++ [⟨.endOfInput, .point 1 1⟩]))).2.issues) ∧
    (declarationUnit (Cursor.ofTokens (classTokens [] fieldKinds))).2.issues.total = 0 ∧
      Continuable ((classTokens [] fieldKinds).take 5) ⟨.endOfInput, .point 1 1⟩
        (declarationUnit (Cursor.ofTokens
          ((classTokens [] fieldKinds).take 5 ++ [⟨.endOfInput, .point 1 1⟩]))).2.issues :=
  ⟨⟨by decide +kernel, (beginning_continuable (by simp [loopTokens, tokensOf]) (List.take_prefix 6 _)
      (by decide) rfl).1 (by decide +kernel)⟩, by decide +kernel,
    (beginning_continuable (by simp [classTokens, fieldKinds, tokensOf]) (List.take_prefix 5 _)
      (by decide) rfl).2 (by decide +kernel)⟩

-- A call without arguments in as many parentheses as may be nested is read without an issue, but cut
-- after its opening parenthesis it is not reported as incomplete.
example : let opened : List TokenKind := List.replicate 63 (.symbol .openParen)
    let closed : List TokenKind := List.replicate 63 (.symbol .closeParen)
    let call : List TokenKind := [.ident "f", .symbol .openParen]
    (statementUnit (Cursor.ofTokens (tokensOf
      (opened ++ call ++ TokenKind.symbol .closeParen :: closed)))).2.issues.total = 0 ∧
    (statementUnit (Cursor.ofTokens (tokensOf
      (opened ++ call ++ [TokenKind.endOfInput])))).2.issues.stored.head?.map Issue.problem =
        some (.nestingLimit .expression maxNesting) := by decide +kernel

end Parser

end Chunkwise
