import Chunkwise.Proofs.Token.Partition
import Chunkwise.Text.Quoted
import Mathlib.Data.List.TakeWhile

/-!
Tokens that are written one after the other, with blanks and comments between them, are read back
as the same tokens. Strings are written as values of that type are shown, integers in decimal and
all other tokens as messages cite them. A negative integer is shown with a minus sign right before its
digits: read back, that is two tokens, and the digits alone have to be in range. The least integer is
the only one that they are not.
-/
namespace Chunkwise

/-- A name that is not reserved: a letter or an underscore, and word characters after it. -/
structure IsName (name : String) : Prop where
  spelled : ∃ c tail, name.toList = c :: tail ∧ Lexeme.isLetter c = true ∧
    ∀ d ∈ tail, Lexeme.isWordChar d = true
  free : Keyword.ofText? name = none

namespace TokenKind

/-- The tokens that have a written form: reserved words, marks, names, integers that are not
negative, and strings. -/
def Writable : TokenKind → Prop
  | .keyword _ | .symbol _ | .str _ => True
  | .ident name => IsName name
  | .int n => 0 ≤ n.toInt
  | .double _ | .unknown _ | .endOfInput => False

def written : TokenKind → String
  | .str s => Text.quoted s
  | k => k.text

end TokenKind

/-- A text between two tokens: it starts with a blank, and blanks and closed comments follow. -/
inductive Separator : List Char → Prop where
  | mk {c : Char} {cs : List Char} : isBlank c = true → Trivia cs → Separator (c :: cs)

/-- The text of a list of tokens, with separators between neighbours. -/
inductive Renders : List TokenKind → List Char → Prop where
  | nil : Renders [] []
  | last {k : TokenKind} : k.Writable → Renders [k] k.written.toList
  | more {k next : TokenKind} {ks : List TokenKind} {gap cs : List Char} : k.Writable →
      Separator gap → Renders (next :: ks) cs →
      Renders (k :: next :: ks) (k.written.toList ++ gap ++ cs)

/-- What may follow a token: nothing, or a blank. -/
def Parted (rest : List Char) : Prop := ∀ c ∈ rest.head?, isBlank c = true

theorem blank_cases {c : Char} (h : isBlank c = true) : c = ' ' ∨ c = '\t' ∨ c = '\r' ∨ c = '\n' := by
  simpa [isBlank, or_assoc] using h

theorem Parted.cases {rest : List Char} (h : Parted rest) : rest = [] ∨
    ∃ c tail, rest = c :: tail ∧ (c = ' ' ∨ c = '\t' ∨ c = '\r' ∨ c = '\n') := by
  cases rest with
  | nil => exact .inl rfl
  | cons c tail => exact .inr ⟨c, tail, rfl, blank_cases (h c rfl)⟩

/-- What may follow the digits of a number: nothing, or a character that does not go on with it. -/
def EndsNumber (rest : List Char) : Prop :=
  ∀ c ∈ rest.head?, Lexeme.isWordChar c = false ∧ c ≠ '.'

namespace Lexeme

/-- At the head of `cs ++ rest` the lexer takes `cs` for a token of kind `k`. -/
def ReadsBefore (k : TokenKind) (cs rest : List Char) : Prop :=
  ∃ c tail, cs = c :: tail ∧ Settled (c :: (tail ++ rest)) ∧
    scan c (tail ++ rest) = ⟨k, cs.length, []⟩

/-- The lexer takes `cs` for a token of kind `k`, whatever parted text follows. -/
def Reads (k : TokenKind) (cs : List Char) : Prop := ∀ rest, Parted rest →
  ∃ c tail, cs = c :: tail ∧ Settled (c :: (tail ++ rest)) ∧
    scan c (tail ++ rest) = ⟨k, cs.length, []⟩

theorem takeWhile_head {p : Char → Bool} {cs rest : List Char} (hcs : ∀ c ∈ cs, p c = true)
    (hrest : ∀ c ∈ rest.head?, p c = false) : (cs ++ rest).takeWhile p = cs := by
  rw [List.takeWhile_append_of_pos hcs]
  cases rest with
  | nil => simp
  | cons c tail => simp [hrest c rfl]

theorem not_isWordChar_of_blank {c : Char} (h : isBlank c = true) : isWordChar c = false := by
  rcases blank_cases h with rfl | rfl | rfl | rfl <;> decide

theorem endsNumber_of_parted {rest : List Char} (h : Parted rest) : EndsNumber rest := by
  intro c hc
  have hblank := h c hc
  constructor
  · exact not_isWordChar_of_blank hblank
  · rintro rfl
    simp [isBlank] at hblank

theorem isWordChar_of_isDigit {c : Char} (h : c.isDigit = true) : isWordChar c = true := by
  simp [isWordChar, Char.isAlphanum, h]

theorem not_isDigit_of_isLetter {c : Char} (h : isLetter c = true) : c.isDigit = false := by
  unfold isLetter Char.isAlpha Char.isUpper Char.isLower at h
  simp only [Bool.or_eq_true, Bool.and_eq_true, decide_eq_true_eq, beq_iff_eq,
    UInt32.le_iff_toNat_le, ge_iff_le] at h
  simp only [Char.isDigit, Bool.and_eq_false_iff, decide_eq_false_iff_not, UInt32.le_iff_toNat_le, ge_iff_le]
  rcases h with (h | h) | rfl
  · right
    have := h.1
    simp at this ⊢
    omega
  · right
    have := h.1
    simp at this ⊢
    omega
  · decide

theorem scan_word {c : Char} (rest : List Char) (h : isLetter c = true) :
    scan c rest = word (c :: rest) ∧ Settled (c :: rest) := by
  have hne : ∀ d, isLetter d = false → c ≠ d := fun d hd hcd => by simp [hcd, hd] at h
  have hblank : isBlank c = false := by
    simp [isBlank, hne ' ' (by decide), hne '\t' (by decide), hne '\r' (by decide),
      hne '\n' (by decide)]
  refine ⟨?_, hblank, fun hslash => absurd hslash (hne '/' (by decide))⟩
  have hquote := hne '"' (by decide)
  have hzero := hne '0' (by decide)
  have hdot := hne '.' (by decide)
  simp [scan, hquote, hzero, hdot, not_isDigit_of_isLetter h, h]

/-- A word is read as the token that its letters stand for. -/
theorem reads_word {c : Char} {tail : List Char} (hc : isLetter c = true)
    (htail : ∀ d ∈ tail, isWordChar d = true) :
    Reads (match Keyword.ofText? (String.ofList (c :: tail)) with
      | some k => .keyword k
      | none => .ident (String.ofList (c :: tail))) (c :: tail) := by
  intro rest hrest
  obtain ⟨hscan, hsettled⟩ := scan_word (tail ++ rest) hc
  have hword : ∀ d ∈ c :: tail, isWordChar d = true := by
    simpa using ⟨isWordChar_of_isLetter hc, htail⟩
  have htake := takeWhile_head hword fun d hd => not_isWordChar_of_blank (hrest d hd)
  refine ⟨c, tail, rfl, hsettled, ?_⟩
  rw [word, ← List.cons_append, htake] at hscan
  exact hscan

theorem reads_ident {name : String} (h : IsName name) : Reads (.ident name) name.toList := by
  obtain ⟨c, tail, hname, hc, htail⟩ := h.spelled
  have hself : String.ofList (c :: tail) = name := by rw [← hname, String.ofList_toList]
  have hreads := reads_word hc htail
  rwa [hself, h.free, ← hname] at hreads

theorem reads_keyword (k : Keyword) : Reads (.keyword k) k.text.toList := by
  have hspelled : ∃ c tail, k.text.toList = c :: tail ∧ isLetter c = true ∧
      (∀ d ∈ tail, isWordChar d = true) := by
    cases k <;> exact ⟨_, _, rfl, by decide, List.all_eq_true.mp (by decide)⟩
  obtain ⟨c, tail, htext, hc, htail⟩ := hspelled
  have hself : String.ofList (c :: tail) = k.text := by rw [← htext, String.ofList_toList]
  have hreads := reads_word hc htail
  rwa [hself, k.ofText?_text, ← htext] at hreads

theorem scan_symbol (s : Symbol) : ∃ c tail, s.text.toList = c :: tail ∧ isBlank c = false ∧
    (c = '/' → tail.head? ≠ some '/' ∧ tail.head? ≠ some '*') ∧
    ∀ rest, Parted rest → scan c (tail ++ rest) = ⟨.symbol s, tail.length + 1, []⟩ := by
  cases s <;> refine ⟨_, _, rfl, rfl, by decide, fun rest hrest => ?_⟩
  all_goals
    rcases hrest.cases with rfl | ⟨b, after, rfl, rfl | rfl | rfl | rfl⟩
    all_goals rfl

theorem reads_symbol (s : Symbol) : Reads (.symbol s) s.text.toList := by
  intro rest hrest
  obtain ⟨c, tail, htext, hblank, hslash, hscan⟩ := scan_symbol s
  refine ⟨c, tail, htext, ⟨hblank, fun hc => ?_⟩, by rw [hscan rest hrest, htext, List.length_cons]⟩
  cases tail with
  | cons d tail => exact hslash hc
  | nil =>
    cases hhead : rest.head? with
    | none => simp [hhead]
    | some d =>
      have hd := hrest d hhead
      rcases blank_cases hd with rfl | rfl | rfl | rfl <;> simp [hhead]

theorem stringBody_escape (offset : Nat) (c : Char) (rest : List Char) :
    stringBody offset (Text.escape c ++ rest) =
      (stringBody (offset + (Text.escape c).length) rest).cons c := by
  unfold Text.escape
  split
  all_goals try rfl
  next hquote hslash hbreak _ _ _ =>
    rw [List.singleton_append, List.length_singleton, stringBody]
    · exact hbreak
    · exact hquote
    all_goals
      intros
      exact hslash ‹_›

theorem stringBody_quoted (offset : Nat) (cs rest : List Char) :
    stringBody offset (cs.flatMap Text.escape ++ '"' :: rest) =
      ⟨cs, offset + (cs.flatMap Text.escape).length + 1, []⟩ := by
  induction cs generalizing offset with
  | nil => rfl
  | cons c cs ih =>
    rw [List.flatMap_cons, List.append_assoc, stringBody_escape, ih, StringBody.cons,
      List.length_append]
    simp only [Nat.add_assoc]

theorem reads_str (s : String) : Reads (.str s) (Text.quoted s).toList := by
  intro rest _
  have hbody := stringBody_quoted 1 s.toList rest
  refine ⟨'"', s.toList.flatMap Text.escape ++ ['"'], by simp [Text.quoted],
    ⟨by decide, fun hslash => absurd hslash (by decide)⟩, ?_⟩
  simp [scan, stringLiteral, Text.quoted, hbody]
  omega

/-- Nothing but the digits of a number is read if what follows does not go on with it. -/
theorem decimalLiteral_digits {digits rest : List Char} (hdigits : ∀ c ∈ digits, c.isDigit = true)
    (hrest : EndsNumber rest) : decimalLiteral (digits ++ rest) =
      integer (Decimal.readNat digits) digits.length (.integerTooLarge (String.ofList digits)) := by
  have hwhole : (digits ++ rest).takeWhile Char.isDigit = digits := by
    apply takeWhile_head hdigits
    intro c hc
    have hword := (hrest c hc).1
    by_contra hdigit
    simp [isWordChar_of_isDigit (c := c) (by simpa using hdigit)] at hword
  have htrailing : ([] ++ rest).takeWhile isWordChar = [] :=
    takeWhile_head nofun fun c hc => (hrest c hc).1
  have hnone : fraction? rest = none ∧ exponent? rest = none ∧ suffix rest = .none := by
    cases rest with
    | nil => exact ⟨rfl, rfl, rfl⟩
    | cons c tail =>
      obtain ⟨hword, hpoint⟩ := hrest c rfl
      have hne : ∀ d, isWordChar d = true → c ≠ d := fun d hd hcd => by simp [← hcd, hword] at hd
      have hmarks : c ∉ ['d', 'D', 'f', 'F', 'm', 'M', 'L', 'l', 'e', 'E'] := by
        intro hmem
        exact hne c (List.all_eq_true.mp (by decide) c hmem) rfl
      simp only [List.mem_cons, not_or, List.not_mem_nil, not_false_eq_true, and_true] at hmarks
      simp [fraction?, exponent?, suffix, hpoint, hmarks]
  obtain ⟨hfraction, hexponent, hsuffix⟩ := hnone
  rw [List.nil_append] at htrailing
  simp [decimalLiteral, hwhole, hfraction, hexponent, hsuffix, htrailing, Suffix.width]

theorem scan_digits {c : Char} {tail rest : List Char} (hdigits : ∀ d ∈ c :: tail, d.isDigit = true)
    (hrest : EndsNumber rest) : Settled (c :: (tail ++ rest)) ∧
      scan c (tail ++ rest) = decimalLiteral (c :: tail ++ rest) := by
  have hdigit := hdigits c List.mem_cons_self
  have hne : ∀ d, d.isDigit = false → c ≠ d := fun d hd hcd => by simp [hcd, hd] at hdigit
  have hblank : isBlank c = false := by
    simp [isBlank, hne ' ' (by decide), hne '\t' (by decide), hne '\r' (by decide),
      hne '\n' (by decide)]
  have hmark : ∀ x, x.isDigit = false → isWordChar x = true → (tail ++ rest).head? ≠ some x := by
    intro x hx hx' hhead
    cases tail with
    | cons d tail =>
      obtain rfl : d = x := by simpa using hhead
      simp [hx] at hdigits
    | nil => simp [(hrest x hhead).1] at hx'
  refine ⟨⟨hblank, fun hslash => absurd hslash (hne '/' (by decide))⟩, ?_⟩
  have hsmall := hmark 'x' (by decide) (by decide)
  have hlarge := hmark 'X' (by decide) (by decide)
  rw [scan, if_neg (hne '"' (by decide)), if_neg fun h => h.2.elim hsmall hlarge,
    if_pos (by simp [hdigit]), List.cons_append]

theorem readNat_toDigits (n : Nat) : Decimal.readNat (Nat.toDigits 10 n) = n := by
  have hfold : Nat.ofDigitChars 10 (Nat.toDigits 10 n) 0 = _ := Nat.ofDigitChars_eq_foldl
  rw [Nat.ofDigitChars_ten_toDigits] at hfold
  exact hfold.symm

theorem toList_toString_natCast (m : Nat) : (toString (m : Int)).toList = Nat.toDigits 10 m := by
  rw [show toString (m : Int) = toString m from rfl, Nat.toString_eq_ofList_toDigits,
    String.toList_ofList]

theorem isDigit_of_mem_toDigits {m : Nat} {c : Char} (h : c ∈ Nat.toDigits 10 m) : c.isDigit = true :=
  Nat.isDigit_of_mem_toDigits (by omega) (by omega) h

theorem readsBefore_int {n : Int64} (h : 0 ≤ n.toInt) {rest : List Char} (hrest : EndsNumber rest) :
    ReadsBefore (.int n) (toString n.toInt).toList rest := by
  obtain ⟨m, hm⟩ := Int.eq_ofNat_of_zero_le h
  have hmax : m ≤ maxInt := by
    have hle := Int64.toInt_lt n
    rw [hm] at hle
    unfold maxInt
    omega
  have hself : Int64.ofNat m = n := by
    rw [← Int64.ofInt_toInt n, hm]
    rfl
  have hdigits : ∀ c ∈ Nat.toDigits 10 m, c.isDigit = true := fun c hc => isDigit_of_mem_toDigits hc
  rw [hm, toList_toString_natCast]
  have hread := decimalLiteral_digits hdigits hrest
  rw [readNat_toDigits, integer, if_pos hmax, hself] at hread
  obtain ⟨c, tail, hcons⟩ := List.exists_cons_of_ne_nil (Nat.toDigits_ne_nil (b := 10) (n := m))
  rw [hcons] at hdigits hread ⊢
  obtain ⟨hsettled, hscan⟩ := scan_digits hdigits hrest
  exact ⟨c, tail, rfl, hsettled, hscan.trans hread⟩

theorem reads_int {n : Int64} (h : 0 ≤ n.toInt) : Reads (.int n) (toString n.toInt).toList :=
  fun _ hrest => readsBefore_int h (endsNumber_of_parted hrest)

theorem reads_written {k : TokenKind} (h : k.Writable) : Reads k k.written.toList := by
  cases k with
  | int n => exact reads_int h
  | str s => exact reads_str s
  | ident name => exact reads_ident h
  | keyword k => exact reads_keyword k
  | symbol s => exact reads_symbol s
  | double | unknown | endOfInput => exact h.elim

end Lexeme

/-- A text of tokens and trivia where the lexer ends every token at its place. -/
inductive Adjoins : List TokenKind → List Char → Prop where
  | trivia {g : List Char} : Trivia g → Adjoins [] g
  | token {k : TokenKind} {ks : List TokenKind} {g cs rest : List Char} : Trivia g → k ≠ .endOfInput →
      Lexeme.ReadsBefore k cs rest → Adjoins ks rest → Adjoins (k :: ks) (g ++ (cs ++ rest))

theorem TokenKind.Writable.ne_endOfInput {k : TokenKind} (h : k.Writable) : k ≠ .endOfInput := by
  rintro rfl
  exact h

theorem Adjoins.written {ks : List TokenKind} {g : List Char} (k : TokenKind) (rest : List Char)
    (hg : Trivia g) (hk : k.Writable) (hparted : Parted rest) (h : Adjoins ks rest) :
    Adjoins (k :: ks) (g ++ (k.written.toList ++ rest)) :=
  .token hg hk.ne_endOfInput (Lexeme.reads_written hk rest hparted) h

theorem Renders.adjoins {ks : List TokenKind} {cs g : List Char} (h : Renders ks cs) (hg : Trivia g) :
    Adjoins ks (g ++ cs) := by
  induction h generalizing g with
  | nil =>
    rw [List.append_nil]
    exact .trivia hg
  | last hk =>
    have hlast := Adjoins.written _ [] hg hk nofun (.trivia .nil)
    rwa [List.append_nil] at hlast
  | more hk hgap _ ih =>
    obtain ⟨hblank, htrivia⟩ := hgap
    rw [List.append_assoc]
    exact .written _ _ hg hk (by simp [Parted, hblank]) (ih (.blank hblank htrivia))

namespace Lexer

/-- Behind trivia the lexer takes a token that ends at its place, and nothing else. -/
theorem next_before {l : Lexer} {k : TokenKind} {g cs rest : List Char} (hg : Trivia g)
    (hk : Lexeme.ReadsBefore k cs rest) (htext : l.rest = g ++ (cs ++ rest))
    (hfull : l.issues.isFull = false) :
    l.next.1.kind = k ∧ l.next.2.rest = rest ∧ l.next.2.issues = l.issues := by
  obtain ⟨c, tail, rfl, hsettled, hscan⟩ := hk
  have hgap : skipGap .blank l.pos l.rest = .before (c :: (tail ++ rest)) (l.pos.after g) := by
    rw [htext, skipGap_trivia hg, List.cons_append, skipGap_settled hsettled]
  have hdrop : (c :: (tail ++ rest)).drop (c :: tail).length = rest := by
    rw [← List.cons_append, List.drop_left]
  rw [List.length_cons] at hdrop
  simp [next, hgap, hfull, hscan, hdrop, Log.pushAll]

theorem next_end {l : Lexer} (h : Trivia l.rest) :
    l.next.1.kind = .endOfInput ∧ l.next.2.issues = l.issues := by
  have hgap := skipGap_trivia h l.pos []
  rw [List.append_nil, skipGap] at hgap
  simp [next, hgap]

theorem tokens_end {limit : Nat} {l : Lexer} (hlimit : 0 < limit) (h : Trivia l.rest) :
    (tokens limit l).1.map Token.kind = [.endOfInput] ∧ (tokens limit l).2.issues = l.issues := by
  obtain ⟨limit, rfl⟩ := Nat.exists_eq_add_one.mpr hlimit
  obtain ⟨hkind, hissues⟩ := next_end h
  simp [tokens, hkind, hissues]

/-- A limit beyond the number of tokens is large enough to read them all. -/
theorem tokens_adjoining {ks : List TokenKind} {cs : List Char} (h : Adjoins ks cs) {limit : Nat}
    {l : Lexer} (hlimit : ks.length < limit) (htext : l.rest = cs) (hfull : l.issues.isFull = false) :
    (tokens limit l).1.map Token.kind = ks ++ [TokenKind.endOfInput] ∧
      (tokens limit l).2.issues = l.issues := by
  obtain ⟨limit, rfl⟩ := Nat.exists_eq_add_one.mpr (Nat.zero_lt_of_lt hlimit)
  induction h generalizing limit l with
  | trivia hg => exact tokens_end (Nat.succ_pos _) (htext ▸ hg)
  | @token k ks g cs rest hg hgoes hk _ ih =>
    obtain ⟨hkind, hleft, hissues⟩ := next_before hg hk htext hfull
    have hmore : ks.length < limit := by simpa using hlimit
    obtain ⟨limit, rfl⟩ := Nat.exists_eq_add_one.mpr (Nat.zero_lt_of_lt hmore)
    obtain ⟨hothers, hsame⟩ := ih hleft (hissues ▸ hfull) limit hmore
    simp [tokens, hkind, hgoes] at hothers hsame ⊢
    exact ⟨hothers, hsame.trans hissues⟩

theorem tokens_rendering {ks : List TokenKind} {cs : List Char} (h : Renders ks cs) {limit : Nat}
    {l : Lexer} {g : List Char} (hlimit : ks.length < limit) (hg : Trivia g)
    (htext : l.rest = g ++ cs) (hfull : l.issues.isFull = false) :
    (tokens limit l).1.map Token.kind = ks ++ [TokenKind.endOfInput] ∧
      (tokens limit l).2.issues = l.issues :=
  tokens_adjoining (h.adjoins hg) hlimit htext hfull

end Lexer

theorem Adjoins.length_le {ks : List TokenKind} {cs : List Char} (h : Adjoins ks cs) :
    ks.length ≤ cs.length := by
  induction h with
  | trivia => exact Nat.zero_le _
  | token _ _ hk _ ih =>
    obtain ⟨c, tail, rfl, -⟩ := hk
    simp only [List.length_cons, List.length_append]
    omega

theorem Renders.length_le {ks : List TokenKind} {cs : List Char} (h : Renders ks cs) :
    ks.length ≤ cs.length := (h.adjoins .nil).length_le

/-- The rendering of a list of tokens is read as that list, then the end of the input, without an
issue. -/
theorem lex_rendering {kinds : List TokenKind} {text : String} (h : Renders kinds text.toList) :
    (lex text).tokens.map Token.kind = kinds ++ [.endOfInput] ∧ (lex text).issues = .empty := by
  have hlimit : kinds.length < text.length + 1 := by
    have hlength := h.length_le
    rw [String.length_toList] at hlength
    omega
  exact Lexer.tokens_rendering h hlimit .nil rfl rfl

/-- Marks that would run together, a reserved word, a comment that ends in an asterisk and a string
with a quote, a backslash and a character beyond ASCII. -/
theorem lex_rendering_mixed :
    Renders [.symbol .plus, .symbol .plusPlus, .keyword .ifKw, .ident "if_", .int 0, .str "\"\\é"]
      "+ /***/++\tif //x\n if_\r0\n\"\\\"\\\\é\"".toList ∧
    (lex "+ /***/++\tif //x\n if_\r0\n\"\\\"\\\\é\"").tokens.map Token.kind =
      [.symbol .plus, .symbol .plusPlus, .keyword .ifKw, .ident "if_", .int 0, .str "\"\\é",
        .endOfInput] ∧
    (lex "+ /***/++\tif //x\n if_\r0\n\"\\\"\\\\é\"").issues = .empty := by
  have hletters : ∀ d ∈ ['f', '_'], Lexeme.isWordChar d = true := List.all_eq_true.mp (by decide)
  have hname : IsName "if_" := ⟨⟨'i', ['f', '_'], by decide, by decide, hletters⟩, by decide⟩
  have hbody : Unclosed ['*'] := by simp [Unclosed, List.infix_cons_iff]
  have hstring : Renders [.str "\"\\é"] _ := .last trivial
  have hint := Renders.more (k := .int 0) (show 0 ≤ Int64.toInt 0 by decide)
    (.mk (c := '\n') rfl .nil) hstring
  have hident := Renders.more (k := .ident "if_") hname (.mk (c := '\r') rfl .nil) hint
  have hkeyword := Renders.more (k := .keyword .ifKw) trivial
    (.mk (c := ' ') rfl (.line (show '\n' ∉ ['x'] by decide) (.blank (c := ' ') rfl .nil))) hident
  have hstep := Renders.more (k := .symbol .plusPlus) trivial (.mk (c := '\t') rfl .nil) hkeyword
  have hplus := Renders.more (k := .symbol .plus) trivial
    (.mk (c := ' ') rfl (.block hbody .nil)) hstep
  have hrenders : Renders [.symbol .plus, .symbol .plusPlus, .keyword .ifKw, .ident "if_", .int 0,
      .str "\"\\é"] "+ /***/++\tif //x\n if_\r0\n\"\\\"\\\\é\"".toList := by
    convert hplus using 1
    decide
  exact ⟨hrenders, lex_rendering hrenders⟩

theorem lex_adjoining {kinds : List TokenKind} {text : String} (h : Adjoins kinds text.toList) :
    (lex text).tokens.map Token.kind = kinds ++ [TokenKind.endOfInput] ∧ (lex text).issues = .empty := by
  have hlimit : kinds.length < text.length + 1 := by
    have hlength := h.length_le
    rw [String.length_toList] at hlength
    omega
  exact Lexer.tokens_adjoining h hlimit rfl rfl

/-- The tokens of an integer as it is shown. -/
def shownTokens (n : Int64) : List TokenKind :=
  if n.toInt < 0 then [.symbol .minus, .int (-n)] else [.int n]

theorem toInt_neg_of_ne_minValue {n : Int64} (hn : n ≠ Int64.minValue) : (-n).toInt = -n.toInt := by
  rw [Int64.toInt_neg]
  have hle := Int64.le_toInt n
  have hlt := Int64.toInt_lt n
  have hne : n.toInt ≠ -2 ^ 63 := fun h => hn (Int64.toInt_inj.mp h)
  exact Int.bmod_eq_of_le (by omega) (by omega)

theorem toList_toString_of_neg {z : Int} (hz : z < 0) :
    (toString z).toList = '-' :: (toString (-z)).toList := by
  obtain ⟨m, rfl⟩ := Int.eq_negSucc_of_lt_zero hz
  change ("-" ++ toString (m + 1)).toList = '-' :: (toString (m + 1)).toList
  rw [String.toList_append]
  rfl

namespace Lexeme

theorem readsBefore_minus {c : Char} {rest : List Char} (hstep : c ≠ '-') (hassign : c ≠ '=') :
    ReadsBefore (.symbol .minus) ['-'] (c :: rest) := by
  have hmark : symbol? ('-' :: c :: rest) = some (.minus, 1) := by
    simp [symbol?, hstep, hassign]
  have hscan : scan '-' (c :: rest) = ⟨.symbol .minus, 1, []⟩ := by
    simp [scan, isLetter, hmark]
  exact ⟨'-', [], rfl, ⟨by decide, fun h => absurd h (by decide)⟩, hscan⟩

end Lexeme

/-- What an integer is shown as is read as its tokens, whatever does not go on with a number follows. -/
theorem adjoins_shown {n : Int64} (hn : n ≠ Int64.minValue) {ks : List TokenKind} {g rest : List Char}
    (hg : Trivia g) (hends : EndsNumber rest) (hrest : Adjoins ks rest) :
    Adjoins (shownTokens n ++ ks) (g ++ ((toString n.toInt).toList ++ rest)) := by
  by_cases hneg : n.toInt < 0
  · have hflip := toInt_neg_of_ne_minValue hn
    obtain ⟨m, hm⟩ := Int.eq_ofNat_of_zero_le (show 0 ≤ (-n).toInt by omega)
    have hdigits := Lexeme.readsBefore_int (n := -n) (by omega) hends
    rw [hm, Lexeme.toList_toString_natCast] at hdigits
    have hafter : Adjoins (.int (-n) :: ks) (Nat.toDigits 10 m ++ rest) :=
      .token .nil nofun hdigits hrest
    have hminus : Lexeme.ReadsBefore (.symbol .minus) ['-'] (Nat.toDigits 10 m ++ rest) := by
      obtain ⟨c, tail, hcons⟩ := List.exists_cons_of_ne_nil (Nat.toDigits_ne_nil (b := 10) (n := m))
      have hdigit : c.isDigit = true := Lexeme.isDigit_of_mem_toDigits (hcons ▸ List.mem_cons_self)
      have hmark : ∀ d : Char, d.isDigit = false → c ≠ d := fun d hd hcd => by simp [hcd, hd] at hdigit
      rw [hcons]
      exact Lexeme.readsBefore_minus (hmark '-' (by decide)) (hmark '=' (by decide))
    have htext : (toString n.toInt).toList = '-' :: Nat.toDigits 10 m := by
      rw [toList_toString_of_neg hneg, ← hflip, hm, Lexeme.toList_toString_natCast]
    have hboth : Adjoins (.symbol .minus :: .int (-n) :: ks)
        (g ++ (['-'] ++ (Nat.toDigits 10 m ++ rest))) := .token hg nofun hminus hafter
    rw [shownTokens, if_pos hneg, htext]
    exact hboth
  · have hdigits := Lexeme.readsBefore_int (n := n) (by omega) hends
    simp only [shownTokens, hneg, if_false]
    exact .token hg nofun hdigits hrest

end Chunkwise
