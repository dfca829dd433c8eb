import Chunkwise.Program.Value
import Chunkwise.Proofs.Parser.Sentence
import Chunkwise.Proofs.Token.Partition
import Mathlib.Data.List.TakeWhile

/-!
The names that a chunk of declarations declares or refers to in its directives are words of its text.
A word is not empty and has no dot in it, so a dotted name splits into the names it was made of.
-/
namespace Chunkwise

/-- A name as it can be written between dots. -/
def IsSegment (name : String) : Prop := name ≠ "" ∧ '.' ∉ name.toList

instance (name : String) : Decidable (IsSegment name) := inferInstanceAs (Decidable (_ ∧ _))

theorem Path.ofText_text {p : Path} (hne : p ≠ []) (h : ∀ n ∈ p, IsSegment n) :
    Path.ofText p.text = p := by
  have hsplit : (['.'].intercalate (p.map String.toList)).splitOn '.' = p.map String.toList := by
    refine List.splitOn_intercalate '.' (fun l hl => ?_) (by simpa using hne)
    obtain ⟨n, hn, rfl⟩ := List.mem_map.mp hl
    exact (h n hn).2
  have hself : String.ofList ∘ String.toList = id := by
    funext s
    simp
  have htext : (Path.text p).toList = ['.'].intercalate (p.map String.toList) := String.toList_intercalate
  rw [Path.ofText, htext, hsplit, List.map_map, hself, List.map_id]

namespace Lexeme

/-- A name can stand between dots, and what is unknown is a flaw. -/
structure Fair (l : Lexeme) : Prop where
  segments : ∀ name, l.kind = .ident name → IsSegment name
  flawed : ∀ x, l.kind = .unknown x → l.flaws ≠ []

theorem word_fair {c : Char} (hc : isLetter c = true) (rest : List Char) :
    (word (c :: rest)).Fair := by
  unfold word
  dsimp only
  split
  · exact ⟨nofun, nofun⟩
  · refine ⟨fun name h => ?_, nofun⟩
    cases h
    refine ⟨?_, fun hdot => ?_⟩
    · simp [isWordChar_of_isLetter hc]
    · rw [String.toList_ofList] at hdot
      have hword := List.mem_takeWhile_imp hdot
      revert hword
      decide

theorem integer_fair (n width : Nat) (tooLarge : Problem) : (integer n width tooLarge).Fair := by
  unfold integer flawedNumber
  split <;> exact ⟨nofun, nofun⟩

theorem hexLiteral_fair (cs : List Char) : (hexLiteral cs).Fair := by
  unfold hexLiteral
  dsimp only
  split
  · exact ⟨nofun, nofun⟩
  · exact integer_fair _ _ _

theorem decimalLiteral_fair (cs : List Char) : (decimalLiteral cs).Fair := by
  have hchoice : ∀ {p : Prop} [Decidable p] {a b : Lexeme}, a.Fair → b.Fair → (if p then a else b).Fair := by
    intro p _ a b ha hb
    split
    · exact ha
    · exact hb
  exact hchoice ⟨nofun, nofun⟩ (hchoice ⟨nofun, nofun⟩ (integer_fair _ _ _))

theorem scan_fair (c : Char) (rest : List Char) : (scan c rest).Fair := by
  unfold scan
  split
  · exact ⟨nofun, nofun⟩
  split
  · exact hexLiteral_fair _
  split
  · exact decimalLiteral_fair _
  split
  · next hletter => exact word_fair hletter rest
  split
  · exact ⟨nofun, nofun⟩
  · exact ⟨nofun, fun _ _ => List.cons_ne_nil _ _⟩

end Lexeme

namespace Lexer

/-- The issues of a token are counted, and a token without any is fair. -/
theorem next_fair (l : Lexer) : l.issues.total ≤ l.next.2.issues.total ∧
    (∀ name, l.next.1.kind = .ident name → IsSegment name) ∧
    ∀ x, l.next.1.kind = .unknown x → l.issues.total < l.next.2.issues.total := by
  unfold next
  split
  · exact ⟨Nat.le_succ _, nofun, nofun⟩
  · next rest pos _ =>
    split
    · exact ⟨Nat.le_refl _, nofun, nofun⟩
    · split
      · exact ⟨Nat.le_refl _, nofun, nofun⟩
      · next c tail _ =>
        have hfair := Lexeme.scan_fair c tail
        simp only [Log.pushAll_total, List.length_map]
        refine ⟨by omega, hfair.segments, fun x hx => ?_⟩
        have hpos := List.length_pos_iff.mpr (hfair.flawed x hx)
        omega

theorem tokens_fair (limit : Nat) (l : Lexer) : l.issues.total ≤ (tokens limit l).2.issues.total ∧
    ∀ t ∈ (tokens limit l).1, (∀ name, t.kind = .ident name → IsSegment name) ∧
      ∀ x, t.kind = .unknown x → l.issues.total < (tokens limit l).2.issues.total := by
  induction limit generalizing l with
  | zero =>
    refine ⟨Nat.le_refl _, fun t ht => ?_⟩
    rw [tokens, List.mem_singleton] at ht
    subst ht
    constructor
    · intro name hname
      cases hname
    · intro x hx
      cases hx
  | succ limit ih =>
    obtain ⟨hle, hname, hunknown⟩ := l.next_fair
    unfold tokens
    dsimp only
    split
    · next hend =>
      refine ⟨hle, fun t ht => ?_⟩
      rw [List.mem_singleton] at ht
      subst ht
      exact ⟨hname, hunknown⟩
    · obtain ⟨hle', hrest⟩ := ih l.next.2
      refine ⟨Nat.le_trans hle hle', fun t ht => ?_⟩
      rcases List.mem_cons.mp ht with rfl | ht
      · exact ⟨hname, fun x hx => Nat.lt_of_lt_of_le (hunknown x hx) hle'⟩
      · exact ⟨(hrest t ht).1, fun x hx => Nat.lt_of_le_of_lt hle ((hrest t ht).2 x hx)⟩

end Lexer

/-- In a text without flaws no token is unknown, and every name can stand between dots. -/
theorem lex_fair {text : String} (h : (lex text).issues.total = 0) :
    ∀ t ∈ (lex text).tokens, (∀ name, t.kind = .ident name → IsSegment name) ∧
      ∀ x, t.kind ≠ .unknown x := by
  intro t ht
  obtain ⟨-, htokens⟩ := Lexer.tokens_fair (text.length + 1) (.ofText text)
  refine ⟨(htokens t ht).1, fun x hx => ?_⟩
  have hlt : 0 < (lex text).issues.total := (htokens t ht).2 x hx
  omega

namespace Grammar

/-- Every sentence has this token in it. -/
def Shows (k : TokenKind) (l : Language TokenKind) : Prop := ∀ w ∈ l, k ∈ w

variable {k : TokenKind} {l m : Language TokenKind}

theorem Shows.mul_left (h : Shows k l) : Shows k (l * m) := by
  intro w hw
  obtain ⟨u, hu, v, -, rfl⟩ := Language.mem_mul.mp hw
  exact List.mem_append_left _ (h u hu)

theorem Shows.mul_right (h : Shows k m) : Shows k (l * m) := by
  intro w hw
  obtain ⟨u, -, v, hv, rfl⟩ := Language.mem_mul.mp hw
  exact List.mem_append_right _ (h v hv)

theorem shows_ident (id : Ident) : Shows (.ident id.name) (ident id) := by
  intro w hw
  rw [show w = [.ident id.name] from hw]
  exact List.mem_singleton_self _

theorem Shows.sepBy {sep : Language TokenKind} {ls : List (Language TokenKind)} (hl : l ∈ ls)
    (h : Shows k l) : Shows k (sepBy sep ls) := by
  induction ls with
  | nil => cases hl
  | cons x xs ih =>
    cases xs with
    | nil =>
      rw [List.mem_singleton.mp hl] at h
      exact h
    | cons y ys =>
      rcases List.mem_cons.mp hl with rfl | hl
      · exact (h.mul_left).mul_left
      · exact (ih hl).mul_right

theorem shows_qualified (q : QualifiedName) : ∀ n ∈ q.segments, Shows (.ident n) (qualified q) := by
  intro n hn
  obtain ⟨id, hid, rfl⟩ := List.mem_map.mp hn
  exact (shows_ident id).sepBy (List.mem_map_of_mem hid)

end Grammar

mutual

/-- The names of the types nested in a member, its own included. -/
def MemberDecl.typeNames : MemberDecl → List String
  | .nested _ head members => head.name.name :: MemberDecl.typeNamesAll members
  | _ => []

def MemberDecl.typeNamesAll : List MemberDecl → List String
  | [] => []
  | m :: rest => m.typeNames ++ MemberDecl.typeNamesAll rest

end

mutual

/-- The names of namespaces and types that a declaration declares. -/
def NamespaceMember.names : NamespaceMember → List String
  | .space _ name members => name.segments ++ NamespaceMember.namesAll members
  | .type decl => decl.head.name.name :: MemberDecl.typeNamesAll decl.members

def NamespaceMember.namesAll : List NamespaceMember → List String
  | [] => []
  | m :: rest => m.names ++ NamespaceMember.namesAll rest

end

/-- The names that a chunk declares, and those of which its directives are made. -/
def DeclarationUnit.names (u : DeclarationUnit) : List String :=
  u.usings.flatMap (·.target.segments) ++ NamespaceMember.namesAll u.members

namespace Grammar

theorem shows_typeHead (h : TypeHead) (l : Language TokenKind) :
    Shows (.ident h.name.name) (typeWith h l) := by
  have hname : Shows (.ident h.name.name) (typeHead h) := (shows_ident h.name).mul_right.mul_left
  exact hname.mul_left.mul_left.mul_left.mul_left

theorem Shows.typeWith {k : TokenKind} {l : Language TokenKind} (hl : Shows k l) (h : TypeHead) :
    Shows k (typeWith h l) :=
  hl.mul_right.mul_left.mul_left

theorem shows_enumList (ms : List MemberDecl) : ∀ n ∈ MemberDecl.typeNamesAll ms,
    Shows (.ident n) (enumList ms) := by
  induction ms with
  | nil => simp [MemberDecl.typeNamesAll]
  | cons m rest ih =>
    intro n hn
    cases m with
    | enumMember d =>
      have hrest : n ∈ MemberDecl.typeNamesAll rest := by
        simpa [MemberDecl.typeNamesAll, MemberDecl.typeNames] using hn
      cases rest with
      | nil => cases hrest
      | cons m' rest =>
        rw [enumList]
        · exact (ih n hrest).mul_right
        · simp
    | _ =>
      intro w hw
      cases rest <;> exact hw.elim

mutual

theorem shows_member (owner : String) : ∀ m : MemberDecl, ∀ n ∈ m.typeNames,
    Shows (.ident n) (member owner m)
  | .nested _ head ms, n, hn => by
    rw [MemberDecl.typeNames, List.mem_cons] at hn
    rw [member]
    rcases hn with rfl | hn
    · exact shows_typeHead head _
    · refine Shows.typeWith ?_ head
      split
      · exact shows_enumList ms n hn
      · exact shows_members head.name.name ms n hn
  | .field _, n, hn | .method _, n, hn | .constructor _, n, hn | .enumMember _, n, hn => by
    cases hn

theorem shows_members (owner : String) : ∀ ms : List MemberDecl, ∀ n ∈ MemberDecl.typeNamesAll ms,
    Shows (.ident n) (members owner ms)
  | m :: rest, n, hn => by
    rw [MemberDecl.typeNamesAll, List.mem_append] at hn
    rw [members]
    rcases hn with hn | hn
    · exact (shows_member owner m n hn).mul_left
    · exact (shows_members owner rest n hn).mul_right

end

theorem shows_typeDecl (d : TypeDecl) : ∀ n ∈ d.head.name.name :: MemberDecl.typeNamesAll d.members,
    Shows (.ident n) (typeDecl d) := by
  intro n hn
  rw [typeDecl]
  rcases List.mem_cons.mp hn with rfl | hn
  · exact shows_typeHead d.head _
  · refine Shows.typeWith ?_ d.head
    split
    · exact shows_enumList d.members n hn
    · exact shows_members d.head.name.name d.members n hn

mutual

theorem shows_namespaceMember : ∀ m : NamespaceMember, ∀ n ∈ m.names,
    Shows (.ident n) (namespaceMember m)
  | .space _ name ms, n, hn => by
    rw [NamespaceMember.names, List.mem_append] at hn
    rw [namespaceMember]
    rcases hn with hn | hn
    · exact (shows_qualified name n hn).mul_right.mul_left.mul_left.mul_left
    · exact (shows_namespaceMembers ms n hn).mul_right.mul_left
  | .type d, n, hn => shows_typeDecl d n hn

theorem shows_namespaceMembers : ∀ ms : List NamespaceMember, ∀ n ∈ NamespaceMember.namesAll ms,
    Shows (.ident n) (namespaceMembers ms)
  | m :: rest, n, hn => by
    rw [NamespaceMember.namesAll, List.mem_append] at hn
    rw [namespaceMembers]
    rcases hn with hn | hn
    · exact (shows_namespaceMember m n hn).mul_left
    · exact (shows_namespaceMembers rest n hn).mul_right

end

theorem shows_usings (us : List UsingDirective) : ∀ n ∈ us.flatMap (·.target.segments),
    Shows (.ident n) (us.map usingDirective).prod := by
  induction us with
  | nil => simp
  | cons u us ih =>
    intro n hn
    rw [List.flatMap_cons, List.mem_append] at hn
    rw [List.map_cons, List.prod_cons]
    rcases hn with hn | hn
    · exact ((shows_qualified u.target n hn).mul_right.mul_left).mul_left
    · exact (ih n hn).mul_right

theorem shows_declarationUnit (u : DeclarationUnit) : ∀ n ∈ u.names,
    Shows (.ident n) (declarationUnit u) := by
  intro n hn
  rcases List.mem_append.mp hn with hn | hn
  · exact (shows_usings u.usings n hn).mul_left
  · exact (shows_namespaceMembers u.members n hn).mul_right

/-- A product has sentences only if each of its factors has one. -/
theorem exists_mem_of_mem_prod {ls : List (Language TokenKind)} {w : List TokenKind}
    (hw : w ∈ ls.prod) {l : Language TokenKind} (hl : l ∈ ls) : ∃ v, v ∈ l := by
  induction ls generalizing w with
  | nil => cases hl
  | cons x xs ih =>
    rw [List.prod_cons] at hw
    obtain ⟨u, hu, v, hv, -⟩ := Language.mem_mul.mp hw
    rcases List.mem_cons.mp hl with rfl | hl
    · exact ⟨u, hu⟩
    · exact ih hv hl

theorem segments_ne_nil {q : QualifiedName} {w : List TokenKind} (hw : w ∈ qualified q) :
    q.segments ≠ [] := by
  obtain ⟨parts, span⟩ := q
  cases parts with
  | nil => exact hw.elim
  | cons id rest => simp [QualifiedName.segments]

theorem targets_of_mem {u : DeclarationUnit} {w : List TokenKind} (hw : w ∈ declarationUnit u) :
    ∀ d ∈ u.usings, d.target.segments ≠ [] := by
  intro d hd
  obtain ⟨v, hv, -⟩ := Language.mem_mul.mp hw
  obtain ⟨x, hx⟩ := exists_mem_of_mem_prod hv (List.mem_map_of_mem hd)
  obtain ⟨y, hy, -⟩ := Language.mem_mul.mp hx
  obtain ⟨-, -, z, hz, -⟩ := Language.mem_mul.mp hy
  exact segments_ne_nil hz

end Grammar

theorem mergeInSourceOrder_total (first second : Diagnostics) :
    first.errors.total + second.errors.total ≤ (first.mergeInSourceOrder second).errors.total := by
  unfold Diagnostics.mergeInSourceOrder
  simp only [Log.pushAll_total]
  omega

/-- A text without a problem has none for the lexer and none for the parser. -/
theorem parseWith_quiet {α : Type} {parser : Parser α} {src : Source}
    (h : (parseWith parser src).diagnostics.hasErrors = false) : (lex src.text).issues.total = 0 ∧
      (parser (Cursor.ofTokens (lex src.text).tokens)).2.issues.total = 0 := by
  have hmerged := mergeInSourceOrder_total (Diagnostics.ofIssues src (lex src.text).issues)
    (Diagnostics.ofIssues src (parser (Cursor.ofTokens (lex src.text).tokens)).2.issues)
  have htotal : (parseWith parser src).diagnostics.errors.total = 0 := by
    simpa [Diagnostics.hasErrors, Log.hasAny] using h
  simp only [parseWith] at htotal
  rw [htotal] at hmerged
  simp only [Diagnostics.ofIssues, Log.map] at hmerged
  omega

/-- The tokens of a text that is read without a problem are a sentence of what is read. -/
theorem sentence_of_read {α : Type} {parser : Parser α} {G : α → Language TokenKind}
    (hparser : Parser.Parses (fun _ => 1) parser fun a c =>
      {w | w ∈ G a ∧ (c.atEnd = true ∨ c.issues.isFull = true)}) {src : Source} {unit : α}
    (hclean : (parseWith parser src).diagnostics.hasErrors = false)
    (hunit : (parseWith parser src).unit = some unit) : sentence (lex src.text).tokens ∈ G unit := by
  obtain ⟨hlexed, hparsed⟩ := parseWith_quiet hclean
  have hfair := lex_fair hlexed
  obtain ⟨u, hu, hsentence⟩ := hparser.whole (fun t ht => (hfair t ht).2) hparsed
  obtain rfl : u = unit := Option.some.inj (hu.symm.trans hunit)
  exact hsentence

/-- The names of a chunk can stand between dots, and its directives name something. -/
structure DeclarationUnit.Named (u : DeclarationUnit) : Prop where
  segments : ∀ n ∈ u.names, IsSegment n
  targets : ∀ d ∈ u.usings, d.target.segments ≠ []

theorem named_of_read {src : Source} {unit : DeclarationUnit}
    (hclean : (parseDeclarations src).diagnostics.hasErrors = false)
    (hunit : (parseDeclarations src).unit = some unit) : unit.Named := by
  have hfair := lex_fair (parseWith_quiet hclean).1
  have hsentence := sentence_of_read Parser.declarationUnit_parses hclean hunit
  refine ⟨fun n hn => ?_, Grammar.targets_of_mem hsentence⟩
  have hmem := Grammar.shows_declarationUnit unit n hn _ hsentence
  obtain ⟨t, ht, hkind⟩ := List.mem_map.mp (List.takeWhile_subset _ hmem)
  exact (hfair t ht).1 n hkind

end Chunkwise
