import Chunkwise.Token.Lexer
import Mathlib.Data.List.Infix

namespace Chunkwise

namespace Position

/-- The position after passing `cs`. -/
def after (p : Position) (cs : List Char) : Position := cs.foldl next p

@[simp] theorem after_nil (p : Position) : p.after [] = p := rfl

@[simp] theorem after_cons (p : Position) (c : Char) (cs : List Char) :
    p.after (c :: cs) = (p.next c).after cs := rfl

@[simp] theorem after_append (p : Position) (cs ds : List Char) :
    p.after (cs ++ ds) = (p.after cs).after ds := List.foldl_append

theorem next_of_ne {c : Char} (p : Position) (h : c ≠ '\n') : p.next c = p.forward 1 := by
  simp [next, forward, h]

theorem forward_forward (p : Position) (m n : Nat) : (p.forward m).forward n = p.forward (m + n) := by
  simp [forward, UInt32.ofNat_add, UInt32.add_assoc]

theorem after_of_unbroken {cs : List Char} (p : Position) (h : '\n' ∉ cs) :
    p.after cs = p.forward cs.length := by
  induction cs generalizing p with
  | nil => simp [forward]
  | cons c cs ih =>
    obtain ⟨hc, hcs⟩ := not_or.mp (mt List.mem_cons.mpr h)
    rw [after_cons, next_of_ne p (Ne.symm hc), ih _ hcs, forward_forward, List.length_cons,
      Nat.add_comm]

end Position

/-- A text in which no block comment ends. -/
def Unclosed (body : List Char) : Prop := ¬ ['*', '/'] <:+: body

/-- Blanks and comments, each of them closed. -/
inductive Trivia : List Char → Prop where
  | nil : Trivia []
  | blank {c : Char} {cs : List Char} : isBlank c = true → Trivia cs → Trivia (c :: cs)
  | line {body cs : List Char} : '\n' ∉ body → Trivia cs →
      Trivia ('/' :: '/' :: (body ++ '\n' :: cs))
  | block {body cs : List Char} : Unclosed body → Trivia cs →
      Trivia ('/' :: '*' :: (body ++ '*' :: '/' :: cs))

/-- Blanks and comments up to the end of a text, which may cut off the last comment. -/
inductive TrailingTrivia : List Char → Prop where
  | closed {g : List Char} : Trivia g → TrailingTrivia g
  | line {g body : List Char} : Trivia g → '\n' ∉ body →
      TrailingTrivia (g ++ '/' :: '/' :: body)
  | block {g body : List Char} : Trivia g → Unclosed body →
      TrailingTrivia (g ++ '/' :: '*' :: body)

theorem Trivia.append {g h : List Char} (hg : Trivia g) (hh : Trivia h) : Trivia (g ++ h) := by
  induction hg with
  | nil => exact hh
  | blank hc _ ih => exact .blank hc ih
  | line hbody _ ih => simpa using Trivia.line hbody ih
  | block hbody _ ih => simpa using Trivia.block hbody ih

theorem TrailingTrivia.cons {g h : List Char} (hg : Trivia g) (hh : TrailingTrivia h) :
    TrailingTrivia (g ++ h) := by
  cases hh with
  | closed h => exact .closed (hg.append h)
  | line h hbody => simpa using TrailingTrivia.line (hg.append h) hbody
  | block h hbody => simpa using TrailingTrivia.block (hg.append h) hbody

theorem unclosed_or_closes (cs : List Char) :
    Unclosed cs ∨ ∃ body rest, cs = body ++ '*' :: '/' :: rest ∧ Unclosed body := by
  induction cs with
  | nil => exact .inl (by simp [Unclosed])
  | cons c cs ih =>
    by_cases hhere : ['*', '/'] <+: c :: cs
    · obtain ⟨rest, hrest⟩ := hhere
      exact .inr ⟨[], rest, by simpa using hrest.symm, by simp [Unclosed]⟩
    · rcases ih with h | ⟨body, rest, rfl, hbody⟩
      · exact .inl (by simp [Unclosed, List.infix_cons_iff, hhere, show ¬ _ from h])
      · refine .inr ⟨c :: body, rest, rfl, ?_⟩
        have hfirst : ¬ ['*', '/'] <+: c :: body := fun hp =>
          hhere (hp.trans (List.prefix_append _ _))
        simp [Unclosed, List.infix_cons_iff, hfirst, show ¬ _ from hbody]

attribute [simp] skipGap

theorem skipGap_blank {c : Char} (h : isBlank c = true) (p : Position) (cs : List Char) :
    skipGap .blank p (c :: cs) = skipGap .blank (p.next c) cs := by
  have hslash : c ≠ '/' := by
    rintro rfl
    exact absurd h (by decide)
  rw [skipGap, if_pos h]
  · rintro _ rfl
    exact absurd rfl hslash
  · rintro _ rfl
    exact absurd rfl hslash

theorem skipGap_lineEnd {body : List Char} (h : '\n' ∉ body) (p : Position) :
    skipGap .line p body = .before [] (p.after body) := by
  induction body generalizing p with
  | nil => rfl
  | cons c body ih =>
    obtain ⟨hc, hbody⟩ := not_or.mp (mt List.mem_cons.mpr h)
    simp [Ne.symm hc, ih hbody]

theorem skipGap_line {body : List Char} (h : '\n' ∉ body) (p : Position) (rest : List Char) :
    skipGap .line p (body ++ '\n' :: rest) = skipGap .blank (p.after (body ++ ['\n'])) rest := by
  induction body generalizing p with
  | nil => simp
  | cons c body ih =>
    obtain ⟨hc, hbody⟩ := not_or.mp (mt List.mem_cons.mpr h)
    simp [Ne.symm hc, ih hbody]

theorem Unclosed.tail {c : Char} {body : List Char} (h : Unclosed (c :: body)) : Unclosed body :=
  fun hbody => h (hbody.trans (List.suffix_cons c body).isInfix)

theorem Unclosed.not_closing {c : Char} {body rest : List Char} (h : Unclosed (c :: body)) :
    c :: body ≠ '*' :: '/' :: rest := fun heq => h ⟨[], rest, by simp [heq]⟩

theorem skipGap_blockEnd {body : List Char} (h : Unclosed body) (start p : Position) :
    skipGap (.block start) p body = .openComment start (p.after body) := by
  induction body generalizing p with
  | nil => rfl
  | cons c body ih =>
    rw [skipGap, ih h.tail, Position.after_cons]
    rintro rest rfl rfl
    exact h.not_closing rfl

theorem skipGap_block {body : List Char} (h : Unclosed body) (start p : Position)
    (rest : List Char) : skipGap (.block start) p (body ++ '*' :: '/' :: rest) =
      skipGap .blank (p.after (body ++ ['*', '/'])) rest := by
  induction body generalizing p with
  | nil => simp [Position.next_of_ne, Position.forward_forward]
  | cons c body ih =>
    rw [List.cons_append, skipGap, ih h.tail]
    · simp
    · rintro tail rfl htail
      cases body with
      | nil => simp at htail
      | cons d body =>
        obtain ⟨rfl, -⟩ := List.cons.inj htail
        exact h.not_closing rfl

theorem skipGap_trivia {g : List Char} (h : Trivia g) (p : Position) (rest : List Char) :
    skipGap .blank p (g ++ rest) = skipGap .blank (p.after g) rest := by
  induction h generalizing p with
  | nil => rfl
  | blank hc _ ih => rw [List.cons_append, skipGap_blank hc, ih, Position.after_cons]
  | @line body cs hbody _ ih =>
    have hpass := skipGap_line hbody (p.forward 2) (cs ++ rest)
    simp [hpass, ih, Position.next_of_ne, Position.forward_forward]
  | @block body cs hbody _ ih =>
    have hpass := skipGap_block hbody p (p.forward 2) (cs ++ rest)
    simp [hpass, ih, Position.next_of_ne, Position.forward_forward]

/-- A text that does not begin with a blank or a comment. -/
def Settled : List Char → Prop
  | [] => True
  | c :: rest => isBlank c = false ∧ (c = '/' → rest.head? ≠ some '/' ∧ rest.head? ≠ some '*')

theorem skipGap_settled {cs : List Char} (h : Settled cs) (p : Position) :
    skipGap .blank p cs = .before cs p := by
  cases cs with
  | nil => rfl
  | cons c rest =>
    obtain ⟨hblank, hcomment⟩ := h
    rw [skipGap, if_neg (by simp [hblank])]
    · rintro tail rfl rfl
      simp at hcomment
    · rintro tail rfl rfl
      simp at hcomment

/-- What begins at the head of a text is a blank, a comment or a token. -/
theorem trivia_or_settled (cs : List Char) :
    (∃ g rest, g ≠ [] ∧ Trivia g ∧ cs = g ++ rest) ∨ (cs ≠ [] ∧ TrailingTrivia cs) ∨
      Settled cs := by
  rcases cs with _ | ⟨c, rest⟩
  · exact .inr (.inr trivial)
  by_cases hblank : isBlank c = true
  · exact .inl ⟨[c], rest, by simp, .blank hblank .nil, rfl⟩
  by_cases hcomment : c = '/' → rest.head? ≠ some '/' ∧ rest.head? ≠ some '*'
  · exact .inr (.inr ⟨by simpa using hblank, hcomment⟩)
  obtain ⟨rfl, hhead⟩ := Classical.not_imp.mp hcomment
  rcases rest with _ | ⟨d, body⟩
  · simp at hhead
  by_cases hline : d = '/'
  · subst hline
    by_cases hbreak : '\n' ∈ body
    · obtain ⟨front, back, rfl, hfront⟩ := List.eq_append_cons_of_mem hbreak
      exact .inl ⟨_, back, by simp, .line hfront .nil, by simp⟩
    · exact .inr (.inl ⟨by simp, .line .nil hbreak⟩)
  · obtain rfl : d = '*' := by simpa [hline] using hhead
    rcases unclosed_or_closes body with hbody | ⟨front, back, rfl, hfront⟩
    · exact .inr (.inl ⟨by simp, .block .nil hbody⟩)
    · exact .inl ⟨_, back, by simp, .block hfront .nil, by simp⟩

/-- Every text begins with trivia; either a token or the end of the text follows, or the last
comment is cut off. -/
theorem trivia_then (cs : List Char) :
    (∃ g rest, cs = g ++ rest ∧ Trivia g ∧ Settled rest) ∨ TrailingTrivia cs := by
  induction hn : cs.length using Nat.strong_induction_on generalizing cs with
  | _ n ih =>
    rcases trivia_or_settled cs with ⟨g, rest, hne, hg, rfl⟩ | ⟨-, h⟩ | h
    · have hshort : rest.length < n := by
        have := List.length_pos_iff.mpr hne
        simp at hn
        omega
      rcases ih _ hshort rest rfl with ⟨g', rest', rfl, hg', hrest⟩ | htrailing
      · exact .inl ⟨g ++ g', rest', by simp, hg.append hg', hrest⟩
      · exact .inr (htrailing.cons hg)
    · exact .inr h
    · exact .inl ⟨[], cs, rfl, .nil, h⟩

theorem skipGap_trailing {cs : List Char} (h : TrailingTrivia cs) (p : Position) :
    skipGap .blank p cs = .before [] (p.after cs) ∨
      ∃ start, skipGap .blank p cs = .openComment start (p.after cs) := by
  cases h with
  | closed hg =>
    have hpass := skipGap_trivia hg p []
    exact .inl (by simpa using hpass)
  | line hg hbody =>
    have hend := skipGap_lineEnd hbody
    exact .inl (by
      rw [skipGap_trivia hg]
      simp [hend, Position.next_of_ne, Position.forward_forward])
  | @block g _ hg hbody =>
    have hend := skipGap_blockEnd hbody
    exact .inr ⟨p.after g, by
      rw [skipGap_trivia hg]
      simp [hend, Position.next_of_ne, Position.forward_forward]⟩

end Chunkwise
