import Chunkwise.Proofs.Parser.Reading
import Chunkwise.Proofs.Token.Trivia
import Mathlib.Data.List.DropRight

/-!
The tokens of a text cut it into consecutive pieces with nothing but blanks and comments between
them, and the span of a token is its true place. At the end of the input the lexer stays there.
-/
namespace Chunkwise

/-- What stands before the end of a text on its last line. -/
def lastLine (before : List Char) : List Char := before.rtakeWhile (· ≠ '\n')

/-- The number of the line on which a text ends. -/
def lineAfter (before : List Char) : Nat := before.count '\n' + 1

/-- The column that follows a text. -/
def columnAfter (before : List Char) : Nat := (lastLine before).length + 1

theorem lastLine_break (before : List Char) : lastLine (before ++ ['\n']) = [] := by
  simp [lastLine]

theorem lastLine_concat {c : Char} (before : List Char) (h : c ≠ '\n') :
    lastLine (before ++ [c]) = lastLine before ++ [c] := by
  simp [lastLine, h]

theorem lastLine_append (before : List Char) {letters : List Char} (h : '\n' ∉ letters) :
    lastLine (before ++ letters) = lastLine before ++ letters := by
  induction letters using List.reverseRecOn with
  | nil => simp
  | append_singleton letters c ih =>
    obtain ⟨hletters, hc⟩ := not_or.mp (mt List.mem_append.mpr h)
    rw [← List.append_assoc, lastLine_concat _ (by simpa [eq_comm] using hc), ih hletters,
      List.append_assoc]

theorem lineAfter_append (before : List Char) {letters : List Char} (h : '\n' ∉ letters) :
    lineAfter (before ++ letters) = lineAfter before := by
  rw [lineAfter, List.count_append, List.count_eq_zero.mpr h, Nat.add_zero, lineAfter]

theorem columnAfter_append (before : List Char) {letters : List Char} (h : '\n' ∉ letters) :
    columnAfter (before ++ letters) = columnAfter before + letters.length := by
  rw [columnAfter, lastLine_append before h, List.length_append, columnAfter]
  omega

theorem after_start (before : List Char) :
    (⟨1, 1⟩ : Position).after before = ⟨lineAfter before, columnAfter before⟩ := by
  induction before using List.reverseRecOn with
  | nil => rfl
  | append_singleton before c ih =>
    rw [Position.after_append, ih, Position.after_cons, Position.after_nil, Position.next]
    split
    · next h => simp [h, lineAfter, columnAfter, lastLine_break]
    · next h => simp [h, lineAfter, columnAfter, lastLine_concat before h]

/-- The line and the column behind a text are numbers of 32 bits. -/
def Counted (before : List Char) : Prop :=
  lineAfter before < 4294967296 ∧ columnAfter before < 4294967296

/-- Every place in a text has a line and a column of 32 bits. -/
def Numbered (cs : List Char) : Prop := ∀ before, before <+: cs → Counted before

theorem lastLine_length_le (before : List Char) : (lastLine before).length ≤ before.length :=
  (List.rtakeWhile_suffix _ before).length_le

theorem numbered_of_length {cs : List Char} (h : cs.length < 4294967295) : Numbered cs := by
  intro before hbefore
  have hlines : before.count '\n' ≤ before.length := List.count_le_length
  have hcolumns := lastLine_length_le before
  have hlength := hbefore.length_le
  unfold Counted lineAfter columnAfter
  omega

theorem lastLine_of_unbroken {before : List Char} (h : '\n' ∉ before) : lastLine before = before := by
  refine List.rtakeWhile_eq_self_iff.mpr fun c hc => ?_
  have hne : c ≠ '\n' := fun heq => h (heq ▸ hc)
  simpa using hne

theorem lastLine_cons {c : Char} {before : List Char} (h : c = '\n' ∨ '\n' ∈ before) :
    lastLine (c :: before) = lastLine before := by
  induction before using List.reverseRecOn with
  | nil =>
    obtain rfl : c = '\n' := by simpa using h
    rfl
  | append_singleton before d ih =>
    rw [← List.cons_append]
    by_cases hd : d = '\n'
    · rw [hd, lastLine_break, lastLine_break]
    · have hbreak : c = '\n' ∨ '\n' ∈ before := by simpa [Ne.symm hd] using h
      rw [lastLine_concat _ hd, lastLine_concat _ hd, ih hbreak]

theorem splitLines_at (before rest : List Char) :
    (Source.splitLines (before ++ rest))[before.count '\n']? =
      some (lastLine before ++ rest.takeWhile (· ≠ '\n')) := by
  induction before with
  | nil =>
    induction rest with
    | nil => rfl
    | cons c rest ih =>
      by_cases hc : c = '\n'
      · simp [hc, Source.splitLines, lastLine]
      · cases hlines : Source.splitLines rest with
        | nil => simp [hlines] at ih
        | cons line lines =>
          have hline : line = rest.takeWhile (· ≠ '\n') := by
            simpa [hlines, lastLine] using ih
          simp [hc, Source.splitLines, hlines, hline, lastLine]
  | cons c before ih =>
    by_cases hc : c = '\n'
    · simp [hc, Source.splitLines, ih, lastLine_cons (.inl rfl)]
    · cases hlines : Source.splitLines (before ++ rest) with
      | nil => simp [hlines] at ih
      | cons line lines =>
        rw [hlines] at ih
        by_cases hbreak : '\n' ∈ before
        · obtain ⟨n, hn⟩ := Nat.exists_eq_add_one.mpr (List.count_pos_iff.mpr hbreak)
          rw [hn] at ih
          simpa [hc, Source.splitLines, hlines, lastLine_cons (.inr hbreak), hn] using ih
        · have hzero := List.count_eq_zero.mpr hbreak
          have hself : lastLine (c :: before) = c :: before :=
            lastLine_of_unbroken (by simp [Ne.symm hc, hbreak])
          rw [hzero, lastLine_of_unbroken hbreak] at ih
          obtain rfl : line = before ++ rest.takeWhile (· ≠ '\n') := by simpa using ih
          simp [hc, Source.splitLines, hlines, hself, hzero]

/-- The first `n` characters are there and have no newline among them. -/
def Clear (n : Nat) (cs : List Char) : Prop := n ≤ cs.length ∧ '\n' ∉ cs.take n

namespace Clear

theorem zero (cs : List Char) : Clear 0 cs := ⟨Nat.zero_le _, by simp⟩

theorem add {m n : Nat} {cs : List Char} (hm : Clear m cs) (hn : Clear n (cs.drop m)) :
    Clear (m + n) cs := by
  have hlen := hn.1
  rw [List.length_drop] at hlen
  refine ⟨by have := hm.1; omega, fun h => ?_⟩
  rw [List.take_add] at h
  exact (List.mem_append.mp h).elim hm.2 hn.2

theorem cons {n : Nat} {c : Char} {cs : List Char} (hc : c ≠ '\n') (h : Clear n cs) :
    Clear (n + 1) (c :: cs) := by
  refine ⟨by have := h.1; simp; omega, ?_⟩
  simp [Ne.symm hc, h.2]

theorem takeWhile {p : Char → Bool} (hp : p '\n' = false) (cs : List Char) :
    Clear (cs.takeWhile p).length cs := by
  have hbegins := List.takeWhile_prefix p (l := cs)
  refine ⟨hbegins.length_le, fun h => ?_⟩
  rw [← List.prefix_iff_eq_take.mp hbegins] at h
  exact absurd (List.mem_takeWhile_imp h) (by simp [hp])

end Clear

namespace Lexeme

/-- A lexeme is a token of its own and takes a part of the line it starts on. -/
structure Fits (l : Lexeme) (cs : List Char) : Prop where
  kind : l.kind ≠ .endOfInput
  positive : 0 < l.width
  clear : Clear l.width cs

theorem stringBody_clear (offset : Nat) (cs : List Char) :
    ∃ n, (stringBody offset cs).width = offset + n ∧ Clear n cs := by
  fun_induction stringBody offset cs with
  | case1 => exact ⟨0, rfl, .zero _⟩
  | case2 => exact ⟨0, rfl, .zero _⟩
  | case3 => exact ⟨1, rfl, .cons (by decide) (.zero _)⟩
  | case4 => exact ⟨1, rfl, .cons (by decide) (.zero _)⟩
  | case5 => exact ⟨1, rfl, .cons (by decide) (.zero _)⟩
  | case6 offset c rest hc d _ ih =>
    obtain ⟨n, hn, hclear⟩ := ih
    exact ⟨n + 2, by rw [StringBody.cons, hn]; omega, .cons (by decide) (.cons hc hclear)⟩
  | case7 offset c rest hc _ ih =>
    obtain ⟨n, hn, hclear⟩ := ih
    refine ⟨n + 2, ?_, .cons (by decide) (.cons hc hclear)⟩
    rw [StringBody.flawed, StringBody.cons, hn]
    omega
  | case8 offset c rest hc _ _ _ _ ih =>
    obtain ⟨n, hn, hclear⟩ := ih
    exact ⟨n + 1, by rw [StringBody.cons, hn]; omega, .cons hc hclear⟩

theorem stringLiteral_fits (rest : List Char) : (stringLiteral rest).Fits ('"' :: rest) := by
  obtain ⟨n, hn, hclear⟩ := stringBody_clear 1 rest
  have hwidth : (stringLiteral rest).width = n + 1 := by rw [stringLiteral, hn, Nat.add_comm]
  exact ⟨nofun, by omega, hwidth ▸ .cons (by decide) hclear⟩

theorem Fits.ite {p : Prop} [Decidable p] {a b : Lexeme} {cs : List Char} (ha : a.Fits cs)
    (hb : b.Fits cs) : (if p then a else b).Fits cs := by
  split
  · exact ha
  · exact hb

theorem flawedNumber_fits {p : Problem} {width : Nat} {cs : List Char} (hpos : 0 < width)
    (h : Clear width cs) : (flawedNumber p width).Fits cs := ⟨nofun, hpos, h⟩

theorem integer_fits {p : Problem} {n width : Nat} {cs : List Char} (hpos : 0 < width)
    (h : Clear width cs) : (integer n width p).Fits cs := by
  exact .ite ⟨nofun, hpos, h⟩ (flawedNumber_fits hpos h)

theorem isHexDigit_newline : Decimal.isHexDigit '\n' = false := by decide

theorem hexSuffix_clear (cs : List Char) :
    Clear (match cs with
      | 'L' :: _ | 'l' :: _ => 1
      | _ => 0) cs := by
  split
  · exact .cons (by decide) (.zero _)
  · exact .cons (by decide) (.zero _)
  · exact .zero _

theorem hexLiteral_fits {x : Char} (hx : x ≠ '\n') (rest : List Char) :
    (hexLiteral rest).Fits ('0' :: x :: rest) := by
  have hdigits := Clear.takeWhile isHexDigit_newline rest
  unfold hexLiteral
  dsimp only
  generalize rest.takeWhile Decimal.isHexDigit = digits at hdigits
  have hsuffix := hexSuffix_clear (rest.drop digits.length)
  have hclear := Clear.cons (by decide : '0' ≠ '\n') (.cons hx (hdigits.add hsuffix))
  rw [show ∀ a b, a + b + 1 + 1 = 2 + a + b by omega] at hclear
  split
  · exact flawedNumber_fits (by omega) hclear
  · exact integer_fits (by omega) hclear

theorem isDigit_newline : Char.isDigit '\n' = false := by decide

theorem isWordChar_newline : isWordChar '\n' = false := by decide

theorem fraction?_clear (cs : List Char) :
    Clear (match fraction? cs with
      | some digits => 1 + digits.length
      | none => 0) cs := by
  split
  · next digits h =>
    unfold fraction? at h
    split at h
    · next rest =>
      dsimp only at h
      split at h
      · cases h
      · cases h
        exact Nat.add_comm 1 _ ▸ .cons (by decide) (.takeWhile isDigit_newline rest)
    · cases h
  · exact .zero _

theorem exponent?_clear (cs : List Char) :
    Clear (match exponent? cs with
      | some (_, _, width) => width
      | none => 0) cs := by
  split
  · next negative digits width h =>
    unfold exponent? at h
    split at h
    · next c rest =>
      split at h
      · next hmark =>
        have hc : c ≠ '\n' := by
          rintro rfl
          exact absurd hmark (by decide)
        split at h
        next signed signs hsigned =>
        have hclear : Clear (signs + signed.length) rest := by
          split at hsigned <;> obtain ⟨-, rfl, rfl⟩ := Prod.mk.injEq .. ▸ hsigned
          · exact Nat.add_comm 1 _ ▸ .cons (by decide) (.takeWhile isDigit_newline _)
          · exact Nat.add_comm 1 _ ▸ .cons (by decide) (.takeWhile isDigit_newline _)
          · exact (Nat.zero_add _).symm ▸ .takeWhile isDigit_newline _
        split at h
        · cases h
        · cases h
          exact Nat.add_assoc 1 _ _ ▸ Nat.add_comm 1 _ ▸ .cons hc hclear
      · cases h
    · cases h
  · exact .zero _

theorem suffix_clear (cs : List Char) : Clear (suffix cs).width cs := by
  unfold suffix
  split
  · next c _ =>
    split
    · next h => exact .cons (by rintro rfl; exact absurd h (by decide)) (.zero _)
    · split
      · next h => exact .cons (by rintro rfl; exact absurd h (by decide)) (.zero _)
      · exact .zero _
  · exact .zero _

/-- A number starts with a digit, or with a point and a digit. -/
def StartsNumber (c : Char) (rest : List Char) : Prop :=
  (c.isDigit || (c == '.' && (rest.head?.map Char.isDigit).getD false)) = true

theorem startsNumber_cases {c : Char} {rest : List Char} (h : StartsNumber c rest) :
    c.isDigit = true ∨ ∃ d tail, c = '.' ∧ rest = d :: tail ∧ d.isDigit = true := by
  rcases (Bool.or_eq_true _ _).mp h with h | h
  · exact .inl h
  · obtain ⟨hc, hd⟩ := (Bool.and_eq_true_iff).mp h
    cases rest with
    | nil => simp at hd
    | cons d tail => exact .inr ⟨d, tail, by simpa using hc, rfl, by simpa using hd⟩

/-- A number has a digit, so its width is not zero. -/
theorem number_positive {c : Char} {rest : List Char} (h : StartsNumber c rest) :
    0 < ((c :: rest).takeWhile Char.isDigit).length +
      match fraction? ((c :: rest).drop ((c :: rest).takeWhile Char.isDigit).length) with
      | some digits => 1 + digits.length
      | none => 0 := by
  rcases startsNumber_cases h with hc | ⟨d, tail, rfl, rfl, hd⟩
  · rw [List.takeWhile_cons_of_pos hc, List.length_cons]
    omega
  · have hfraction : fraction? ('.' :: d :: tail) = some (d :: tail.takeWhile Char.isDigit) := by
      simp [fraction?, hd]
    rw [List.takeWhile_cons_of_neg (by decide), List.length_nil, List.drop_zero, hfraction]
    exact Nat.add_pos_right _ (Nat.add_pos_left Nat.one_pos _)

theorem decimalLiteral_fits {c : Char} {rest : List Char} (h : StartsNumber c rest) :
    (decimalLiteral (c :: rest)).Fits (c :: rest) := by
  have hwhole := Clear.takeWhile isDigit_newline (c :: rest)
  have hnumber := (hwhole.add (fraction?_clear _)).add (exponent?_clear _)
  have hclear := (hnumber.add (suffix_clear _)).add (.takeWhile isWordChar_newline _)
  unfold decimalLiteral
  dsimp only
  have hpos := fun l m n =>
    Nat.add_pos_left (Nat.add_pos_left (Nat.add_pos_left (number_positive h) l) m) n
  exact .ite (flawedNumber_fits (hpos _ _ _) hclear)
    (.ite ⟨nofun, hpos _ _ _, hclear⟩ (integer_fits (hpos _ _ _) hclear))

theorem isWordChar_of_isLetter {c : Char} (h : isLetter c = true) : isWordChar c = true := by
  unfold isLetter at h
  unfold isWordChar Char.isAlphanum
  revert h
  cases c.isAlpha <;> simp +contextual

theorem word_fits {c : Char} (rest : List Char) (hc : isLetter c = true) :
    (word (c :: rest)).Fits (c :: rest) := by
  have hword := isWordChar_of_isLetter hc
  unfold word
  dsimp only
  refine ⟨?_, by simp [hword], .takeWhile isWordChar_newline _⟩
  dsimp only
  split <;> exact nofun

theorem symbol?_prefix {cs : List Char} {s : Symbol} {width : Nat}
    (h : symbol? cs = some (s, width)) : s.text.toList <+: cs ∧ width = s.text.toList.length := by
  unfold symbol? at h
  split at h <;> cases h
  all_goals exact ⟨⟨_, rfl⟩, rfl⟩

theorem symbol?_text (s : Symbol) : symbol? s.text.toList = some (s, s.text.length) := by
  cases s <;> rfl

theorem symbol_text_injective {a b : Symbol} (h : a.text = b.text) : a = b := by
  have hread := symbol?_text a
  rw [h, symbol?_text] at hread
  exact (Prod.mk.inj (Option.some.inj hread)).1.symm

theorem symbol_fits {cs : List Char} {s : Symbol} {width : Nat}
    (h : symbol? cs = some (s, width)) : (Lexeme.mk (.symbol s) width []).Fits cs := by
  obtain ⟨hbegins, rfl⟩ := symbol?_prefix h
  have htext : 0 < s.text.toList.length ∧ '\n' ∉ s.text.toList := by
    cases s <;> decide
  refine ⟨nofun, htext.1, hbegins.length_le, ?_⟩
  rw [← List.prefix_iff_eq_take.mp hbegins]
  exact htext.2

theorem scan_fits {c : Char} (rest : List Char) (hc : c ≠ '\n') :
    (scan c rest).Fits (c :: rest) := by
  unfold scan
  split
  · next h => exact h ▸ stringLiteral_fits rest
  split
  · next h =>
    obtain ⟨rfl, hx⟩ := h
    cases rest with
    | nil => simp at hx
    | cons x rest => exact hexLiteral_fits (by rintro rfl; simp at hx) rest
  split
  · next h => exact decimalLiteral_fits h
  split
  · next h => exact word_fits rest h
  split
  · next h => exact symbol_fits h
  · exact ⟨nofun, Nat.one_pos, .cons hc (.zero _)⟩

end Lexeme

/-- The span is the place of `letters`, a part of one line that stands after `before`. -/
structure Span.Covers (s : Span) (before letters : List Char) : Prop where
  startLine : s.startLine.toNat = lineAfter before
  startCol : s.startCol.toNat = columnAfter before
  endLine : s.endLine.toNat = lineAfter before
  endCol : s.endCol.toNat = columnAfter before + letters.length - 1

/-- Up to the place behind `letters` the counters have not overflowed. -/
theorem Position.spanTo_covers {before letters : List Char} (hne : letters ≠ [])
    (hunbroken : '\n' ∉ letters) (h : Counted (before ++ letters)) :
    (spanTo ⟨lineAfter before, columnAfter before⟩
      (forward ⟨lineAfter before, columnAfter before⟩ letters.length)).Covers before letters := by
  obtain ⟨hline, hcolumn⟩ := h
  rw [lineAfter_append before hunbroken] at hline
  rw [columnAfter_append before hunbroken] at hcolumn
  have hletters := List.length_pos_iff.mpr hne
  have hstart : 0 < columnAfter before := Nat.succ_pos _
  have hstop : (UInt32.ofNat (columnAfter before) + UInt32.ofNat letters.length).toNat =
      columnAfter before + letters.length := by
    rw [← UInt32.ofNat_add, UInt32.toNat_ofNat_of_lt' hcolumn]
  have hbehind : ¬ UInt32.ofNat (columnAfter before) + UInt32.ofNat letters.length ≤ 1 := by
    rw [UInt32.le_iff_toNat_le, hstop, UInt32.toNat_one]
    omega
  refine ⟨?_, ?_, ?_, ?_⟩
  · exact UInt32.toNat_ofNat_of_lt' hline
  · exact UInt32.toNat_ofNat_of_lt' (by simp only [UInt32.size]; omega)
  · exact UInt32.toNat_ofNat_of_lt' hline
  · have hone : (1 : UInt32) ≤
        UInt32.ofNat (columnAfter before) + UInt32.ofNat letters.length := by
      rw [UInt32.le_iff_toNat_le, hstop, UInt32.toNat_one]
      omega
    rw [spanTo, forward]
    dsimp only
    rw [if_neg hbehind, UInt32.toNat_sub_of_le _ _ hone, hstop, UInt32.toNat_one]

/-- The snippet of a span that starts after `before` is the line around that place. -/
theorem snippet_after (name : String) (before rest : List Char) {span : Span}
    (h : span.startLine.toNat = lineAfter before) :
    (Source.mk name (String.ofList (before ++ rest))).snippet span =
      String.ofList (Source.dropReturn (lastLine before ++ rest.takeWhile (· ≠ '\n'))) := by
  have hline := splitLines_at before rest
  simp [Source.snippet, Source.line?, h, lineAfter, hline]

/-- A token is the part `letters` of one line of a text, with `before` and `after` around it. If the
place behind it is counted, its span is its place and its snippet is its line. -/
structure Token.At (t : Token) (before letters after : List Char) : Prop where
  kind : t.kind ≠ .endOfInput
  nonempty : letters ≠ []
  unbroken : '\n' ∉ letters
  span : Counted (before ++ letters) → t.span.Covers before letters
  snippet : Counted (before ++ letters) → ∀ name,
    (Source.mk name (String.ofList (before ++ letters ++ after))).snippet t.span =
      String.ofList (Source.dropReturn (lastLine before ++ (letters ++ after).takeWhile (· ≠ '\n')))

theorem Token.At.of_span {t : Token} {before letters after : List Char}
    (hkind : t.kind ≠ .endOfInput) (hne : letters ≠ []) (hunbroken : '\n' ∉ letters)
    (hspan : Counted (before ++ letters) → t.span.Covers before letters) :
    t.At before letters after := by
  refine ⟨hkind, hne, hunbroken, hspan, fun h name => ?_⟩
  rw [List.append_assoc]
  exact snippet_after name before (letters ++ after) (hspan h).startLine

/-- The tokens of `rest`, which stands after `before`: each behind trivia, and at last the end of
the input. Something is left unread only if the lexer has `stopped`. -/
inductive Partition (stopped : Prop) : List Char → List Char → List Token → Prop where
  | stop {before g unread : List Char} : TrailingTrivia g → unread = [] ∨ stopped →
      Partition stopped before (g ++ unread) [⟨.endOfInput,
        .point (lineAfter (before ++ g)) (columnAfter (before ++ g))⟩]
  | token {before g letters rest : List Char} {t : Token} {ts : List Token} : Trivia g →
      t.At (before ++ g) letters rest → Partition stopped (before ++ g ++ letters) rest ts →
      Partition stopped before (g ++ letters ++ rest) (t :: ts)

namespace Lexer

/-- Pulling one token after the other up to the first end of input. -/
inductive Pulls : Lexer → List Token → Lexer → Prop where
  | stop {l : Lexer} : l.next.1.kind = .endOfInput → Pulls l [l.next.1] l.next.2
  | more {l last : Lexer} {ts : List Token} : l.next.1.kind ≠ .endOfInput →
      Pulls l.next.2 ts last → Pulls l (l.next.1 :: ts) last

/-- The lexer answers with the end of input, behind trivia, and stays where it is. -/
structure Stops (l : Lexer) (g unread : List Char) : Prop where
  text : l.rest = g ++ unread
  trivia : TrailingTrivia g
  unread : unread = [] ∨ l.next.2.issues.isFull = true
  token : l.next.1 = ⟨.endOfInput, (l.pos.after g).point⟩
  stays : l.next.2.next = l.next

/-- The lexer takes `letters` as a token, behind trivia. -/
structure Takes (l : Lexer) (g letters rest : List Char) : Prop where
  text : l.rest = g ++ letters ++ rest
  trivia : Trivia g
  nonempty : letters ≠ []
  unbroken : '\n' ∉ letters
  kind : l.next.1.kind ≠ .endOfInput
  span : l.next.1.span = (l.pos.after g).spanTo ((l.pos.after g).forward letters.length)
  left : l.next.2.rest = rest
  pos : l.next.2.pos = l.pos.after (g ++ letters)

theorem next_nil (p : Position) (issues : Log Issue) :
    next ⟨[], p, issues⟩ = (⟨.endOfInput, p.point⟩, ⟨[], p, issues⟩) := by
  simp [next]

theorem stops_of_trailing {l : Lexer} (h : TrailingTrivia l.rest) : l.Stops l.rest [] := by
  rcases skipGap_trailing h l.pos with hskip | ⟨start, hskip⟩
  · have hnext : l.next =
        (⟨.endOfInput, (l.pos.after l.rest).point⟩, ⟨[], l.pos.after l.rest, l.issues⟩) := by
      simp [next, hskip]
    exact ⟨by simp, h, .inl rfl, by rw [hnext], by rw [hnext, next_nil]⟩
  · have hnext : l.next = (⟨.endOfInput, (l.pos.after l.rest).point⟩, ⟨[], l.pos.after l.rest,
        l.issues.push ⟨.openComment, start.spanTo (l.pos.after l.rest)⟩⟩) := by
      simp [next, hskip]
    exact ⟨by simp, h, .inl rfl, by rw [hnext], by rw [hnext, next_nil]⟩

theorem stops_of_full {l : Lexer} {g unread : List Char} (hrest : l.rest = g ++ unread)
    (hg : Trivia g) (hunread : Settled unread) (hfull : l.issues.isFull = true) :
    l.Stops g unread := by
  have hnext : l.next =
      (⟨.endOfInput, (l.pos.after g).point⟩, ⟨unread, l.pos.after g, l.issues⟩) := by
    simp [next, hrest, skipGap_trivia hg, skipGap_settled hunread, hfull]
  have hagain : next ⟨unread, l.pos.after g, l.issues⟩ =
      (⟨.endOfInput, (l.pos.after g).point⟩, ⟨unread, l.pos.after g, l.issues⟩) := by
    simp [next, skipGap_settled hunread, hfull]
  exact ⟨hrest, .closed hg, .inr (by rw [hnext]; exact hfull), by rw [hnext],
    by rw [hnext, hagain]⟩

theorem next_of_settled {l : Lexer} {g tail : List Char} {c : Char} (hrest : l.rest = g ++ c :: tail)
    (hg : Trivia g) (hsettled : Settled (c :: tail)) (hfull : l.issues.isFull = false) :
    l.next = (⟨(Lexeme.scan c tail).kind,
      (l.pos.after g).spanTo ((l.pos.after g).forward (Lexeme.scan c tail).width)⟩,
      ⟨(c :: tail).drop (Lexeme.scan c tail).width,
        (l.pos.after g).forward (Lexeme.scan c tail).width,
        l.issues.pushAll ((Lexeme.scan c tail).flaws.map (locate (l.pos.after g)))⟩) := by
  simp [next, hrest, skipGap_trivia hg, skipGap_settled hsettled, hfull]

theorem takes_of_settled {l : Lexer} {g tail : List Char} {c : Char} (hrest : l.rest = g ++ c :: tail)
    (hg : Trivia g) (hsettled : Settled (c :: tail)) (hfull : l.issues.isFull = false) :
    ∃ letters rest, l.Takes g letters rest := by
  have hc : c ≠ '\n' := by
    rintro rfl
    exact absurd hsettled.1 (by decide)
  obtain ⟨hkind, hpos, hlen, hunbroken⟩ := Lexeme.scan_fits tail hc
  have hnext := next_of_settled hrest hg hsettled hfull
  generalize Lexeme.scan c tail = lexeme at *
  have hwidth : ((c :: tail).take lexeme.width).length = lexeme.width := by simp at hlen ⊢; omega
  refine ⟨(c :: tail).take lexeme.width, (c :: tail).drop lexeme.width, ?_⟩
  refine ⟨by rw [hrest, List.append_assoc, List.take_append_drop], hg, ?_, hunbroken, ?_, ?_, ?_, ?_⟩
  · exact List.length_pos_iff.mp (by omega)
  · rw [hnext]
    exact hkind
  · rw [hnext, hwidth]
  · rw [hnext]
  · rw [hnext, Position.after_append, Position.after_of_unbroken _ hunbroken, hwidth]

theorem stops_or_takes (l : Lexer) :
    (∃ g unread, l.Stops g unread) ∨ ∃ g letters rest, l.Takes g letters rest := by
  rcases trivia_then l.rest with ⟨g, rest, hrest, hg, hsettled⟩ | htrailing
  · cases hfull : l.issues.isFull with
    | true => exact .inl ⟨g, rest, stops_of_full hrest hg hsettled hfull⟩
    | false =>
      cases rest with
      | nil =>
        rw [List.append_nil] at hrest
        exact .inl ⟨l.rest, [], stops_of_trailing (hrest ▸ .closed hg)⟩
      | cons c tail => exact .inr ⟨g, takes_of_settled hrest hg hsettled hfull⟩
  · exact .inl ⟨l.rest, [], stops_of_trailing htrailing⟩

/-- With a limit beyond the length of the text the tokens are those that pulling yields. -/
theorem tokens_partition {limit : Nat} {l : Lexer} {before : List Char}
    (hlimit : l.rest.length < limit) (hpos : l.pos = Position.after ⟨1, 1⟩ before) :
    Pulls l (tokens limit l).1 (tokens limit l).2 ∧
      Partition ((tokens limit l).2.issues.isFull = true) before l.rest (tokens limit l).1 := by
  induction limit generalizing l before with
  | zero => omega
  | succ limit ih =>
    unfold tokens
    dsimp only
    rcases l.stops_or_takes with ⟨g, unread, h⟩ | ⟨g, letters, rest, h⟩
    · have hend : l.next.1.kind = .endOfInput := by rw [h.token]
      rw [if_pos hend]
      refine ⟨.stop hend, ?_⟩
      rw [h.text, h.token, hpos, ← Position.after_append, after_start]
      exact .stop h.trivia h.unread
    · rw [if_neg h.kind]
      have hshort : l.next.2.rest.length < limit := by
        have hletters := List.length_pos_iff.mpr h.nonempty
        rw [h.text] at hlimit
        simp only [List.length_append] at hlimit
        rw [h.left]
        omega
      have hpos' : l.next.2.pos = Position.after ⟨1, 1⟩ (before ++ g ++ letters) := by
        rw [h.pos, hpos, ← Position.after_append, List.append_assoc]
      obtain ⟨hpulls, hpartition⟩ := ih hshort hpos'
      refine ⟨.more h.kind hpulls, ?_⟩
      rw [h.left] at hpartition
      rw [h.text]
      have hspan : Counted (before ++ g ++ letters) → l.next.1.span.Covers (before ++ g) letters := by
        rw [h.span, hpos, ← Position.after_append, after_start]
        exact Position.spanTo_covers h.nonempty h.unbroken
      exact .token h.trivia (.of_span h.kind h.nonempty h.unbroken hspan) hpartition

theorem ofText_partition (text : String) :
    Pulls (ofText text) (lex text).tokens (tokens (text.length + 1) (ofText text)).2 ∧
      Partition ((lex text).issues.isFull = true) [] text.toList (lex text).tokens := by
  have hlimit : (ofText text).rest.length < text.length + 1 := by
    rw [ofText, String.length_toList]
    exact Nat.lt_succ_self _
  exact tokens_partition hlimit rfl

end Lexer

/-- The tokens of a text are pulled one by one up to the first end of input, and they cut the text
into consecutive pieces of its lines with only trivia between them. The span of a token is its place
if the place behind it is counted, as all places are in a text of less than `2 ^ 32 - 1` characters.
After an end of input nothing changes any more: every further pull gives the same token and leaves the
lexer as it is. -/
theorem lex_partitions (text : String) :
    (∃ last, Lexer.Pulls (.ofText text) (lex text).tokens last ∧ last.issues = (lex text).issues) ∧
    Partition ((lex text).issues.isFull = true) [] text.toList (lex text).tokens ∧
    (text.length < 4294967295 → Numbered text.toList) ∧
    ∀ l : Lexer, l.next.1.kind = .endOfInput →
      ∀ n, ((fun m => m.next.2)^[n] l.next.2).next = l.next := by
  obtain ⟨hpulls, hpartition⟩ := Lexer.ofText_partition text
  refine ⟨⟨_, hpulls, rfl⟩, hpartition, fun hshort => ?_, fun l hend n => ?_⟩
  · exact numbered_of_length (String.length_toList ▸ hshort)
  rcases l.stops_or_takes with ⟨g, unread, h⟩ | ⟨g, letters, rest, h⟩
  · have hfixed : l.next.2.next.2 = l.next.2 := by rw [h.stays]
    rw [Function.iterate_fixed hfixed, h.stays]
  · exact absurd hend h.kind

/-- Behind the token of `é /*` the open comment is reported once, however often one pulls. -/
theorem lex_partitions_openComment :
    Numbered "é /*".toList ∧
    (Lexer.ofText "é /*").next.2.next.1.kind = .endOfInput ∧
    (Lexer.ofText "é /*").next.2.next.2.issues.total = 2 ∧
    ∀ n, ((fun m => m.next.2)^[n] (Lexer.ofText "é /*").next.2.next.2).next =
      (Lexer.ofText "é /*").next.2.next := by
  have hend : (Lexer.ofText "é /*").next.2.next.1.kind = .endOfInput := by decide
  exact ⟨(lex_partitions "é /*").2.2.1 (by decide), hend, by decide,
    (lex_partitions "é /*").2.2.2 _ hend⟩

def indented (n : Nat) : String := String.ofList (List.replicate n ' ' ++ ['x'])

theorem indented_length (n : Nat) : (indented n).length = n + 1 := by
  rw [indented, String.length_ofList, List.length_append, List.length_replicate, List.length_singleton]

theorem trivia_blanks (n : Nat) : Trivia (List.replicate n ' ') := by
  induction n with
  | zero => exact .nil
  | succ n ih => exact .blank (by decide) ih

theorem Position.after_blanks (p : Position) (n : Nat) :
    p.after (List.replicate n ' ') = p.forward n := by
  rw [after_of_unbroken p fun h => absurd (List.eq_of_mem_replicate h) (by decide),
    List.length_replicate]

theorem lex_indented (n : Nat) : (lex (indented n)).tokens =
    [⟨.ident "x", Position.spanTo ⟨1, 1 + UInt32.ofNat n⟩ ⟨1, 1 + UInt32.ofNat n + 1⟩⟩,
      ⟨.endOfInput, .point 1 (1 + UInt32.ofNat n + 1)⟩] := by
  have hrest : (Lexer.ofText (indented n)).rest = List.replicate n ' ' ++ 'x' :: [] :=
    String.toList_ofList
  have hnext := Lexer.next_of_settled hrest (trivia_blanks n) ⟨by decide, nofun⟩ rfl
  rw [Position.after_blanks] at hnext
  rw [lex, indented_length, Lexer.tokens, hnext]
  rfl

/-- In a line of `2 ^ 32 - 1` characters the column behind the last one is zero, so a word there seems
to end at its start. In a text without a newline a carriage return at the end is not cited. -/
theorem column_overflows_return_drops :
    (indented 4294967294).length = 4294967295 ∧
    (lex (indented 4294967294)).tokens.map Token.span = [⟨1, 4294967295, 1, 1⟩, .point 1 0] ∧
    (lex "$\r").tokens.map Token.span = [.point 1 1, .point 1 3] ∧
    (Source.mk "test" "$\r").snippet (.point 1 1) = "$" := by
  refine ⟨indented_length _, ?_, by decide, by decide⟩
  rw [lex_indented]
  decide

end Chunkwise
