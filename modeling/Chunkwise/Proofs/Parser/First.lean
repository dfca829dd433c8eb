import Chunkwise.Classify
import Chunkwise.Proofs.Parser.Names
import Chunkwise.Proofs.Token.Partition

namespace Chunkwise

namespace Grammar

/-- Every sentence that is not empty begins with a token of which `P` holds. -/
def Leads (P : TokenKind → Prop) (l : Language TokenKind) : Prop := ∀ w ∈ l, ∀ k ∈ w.head?, P k

variable {P : TokenKind → Prop} {l m : Language TokenKind}

theorem Leads.one : Leads P 1 := by
  intro w hw k hk
  rw [Language.mem_one] at hw
  simp [hw] at hk

theorem Leads.zero : Leads P 0 := fun _ hw => hw.elim

theorem Leads.token {k : TokenKind} (h : P k) : Leads P {[k]} := by
  rintro w rfl k' hk'
  simp only [List.head?_cons, Option.mem_def, Option.some.injEq] at hk'
  rwa [← hk']

theorem Leads.add (hl : Leads P l) (hm : Leads P m) : Leads P (l + m) := by
  rintro w (hw | hw)
  · exact hl w hw
  · exact hm w hw

theorem Leads.mul (hl : Leads P l) (hm : Leads P m) : Leads P (l * m) := by
  intro w hw k hk
  obtain ⟨u, hu, v, hv, rfl⟩ := Language.mem_mul.mp hw
  cases u with
  | nil => exact hm v hv k hk
  | cons x u => exact hl _ hu k hk

theorem Leads.before (hl : Leads P l) (hne : [] ∉ l) (m : Language TokenKind) : Leads P (l * m) := by
  intro w hw k hk
  obtain ⟨u, hu, v, -, rfl⟩ := Language.mem_mul.mp hw
  cases u with
  | nil => exact absurd hu hne
  | cons x u => exact hl _ hu k hk

theorem Leads.prod {ls : List (Language TokenKind)} (h : ∀ l ∈ ls, Leads P l) : Leads P ls.prod := by
  induction ls with
  | nil => exact Leads.one
  | cons l ls ih =>
    rw [List.prod_cons]
    exact (h l List.mem_cons_self).mul (ih fun m hm => h m (List.mem_cons_of_mem l hm))

theorem Leads.sepBy {sep : Language TokenKind} {ls : List (Language TokenKind)}
    (h : ∀ l ∈ ls, Leads P l) (hne : ∀ l ∈ ls, [] ∉ l) : Leads P (sepBy sep ls) := by
  cases ls with
  | nil => exact Leads.zero
  | cons l ls =>
    have hl := h l List.mem_cons_self
    cases ls with
    | nil => exact hl
    | cons m ms =>
      simp only [Grammar.sepBy, mul_assoc]
      exact hl.before (hne l List.mem_cons_self) _

theorem word_text (k : Keyword) : word k.text = {[.keyword k]} := by
  ext w
  constructor
  · rintro ⟨k', htext, rfl⟩
    rw [Keyword.text_injective htext]
    rfl
  · rintro rfl
    exact Parser.word_self k

theorem sign_text (s : Symbol) : sign s.text = {[.symbol s]} := by
  ext w
  constructor
  · rintro ⟨s', htext, rfl⟩
    rw [Lexeme.symbol_text_injective htext]
    rfl
  · rintro rfl
    exact Parser.sign_self s

theorem leads_keyword (k : Keyword) (h : P (.keyword k)) : Leads P (word k.text) := by
  rw [word_text]
  exact Leads.token h

/-- A token that makes a chunk one of statements, whatever follows it. -/
def OpensStatement (k : TokenKind) : Prop := ∀ second, ChunkClass.ofKinds k second = .statements

/-- The words that no statement begins with. -/
def declarative : List Keyword :=
  [.abstractKw, .classKw, .enumKw, .interfaceKw, .internalKw, .namespaceKw, .privateKw, .protectedKw,
    .publicKw, .sealedKw, .staticKw, .structKw, .usingKw, .delegateKw, .unsafeKw, .readonlyKw,
    .overrideKw]

theorem opens_keyword {k : Keyword} (h : k ∉ declarative) : OpensStatement (.keyword k) := by
  intro second
  revert h
  cases k <;> first | exact fun _ => rfl | exact fun h => absurd (by decide) h

theorem opens_symbol {s : Symbol} (h : s ≠ .openBracket) : OpensStatement (.symbol s) := by
  intro second
  revert h
  cases s <;> first | exact fun _ => rfl | exact fun h => absurd rfl h

theorem leads_word {text : String} (h : ∀ k ∈ declarative, k.text ≠ text) :
    Leads OpensStatement (word text) := by
  rintro w ⟨k, rfl, rfl⟩
  have hk : k ∉ declarative := fun hmem => h k hmem rfl
  exact Leads.token (opens_keyword hk) _ rfl

theorem leads_sign {text : String} (h : text ≠ "[") : Leads OpensStatement (sign text) := by
  rintro w ⟨s, rfl, rfl⟩
  have hs : s ≠ .openBracket := fun heq => h (heq ▸ rfl)
  exact Leads.token (opens_symbol hs) _ rfl

theorem leads_ident (id : Ident) : Leads OpensStatement (ident id) := Leads.token fun _ => rfl

theorem leads_qualified (q : QualifiedName) : Leads OpensStatement (qualified q) := by
  refine Leads.sepBy (fun l hl => ?_) fun l hl => ?_
  · obtain ⟨id, -, rfl⟩ := List.mem_map.mp hl
    exact leads_ident id
  · obtain ⟨id, -, rfl⟩ := List.mem_map.mp hl
    exact nil_notMem_ident id

theorem nil_notMem_sepBy {sep : Language TokenKind} {ls : List (Language TokenKind)}
    (h : ∀ l ∈ ls, [] ∉ l) : [] ∉ sepBy sep ls := by
  cases ls with
  | nil => exact fun hmem => hmem
  | cons l ls =>
    have hl := h l List.mem_cons_self
    cases ls with
    | nil => exact hl
    | cons m ms => exact Parser.nil_notMem_mul_left (Parser.nil_notMem_mul_left hl)

theorem nil_notMem_qualified (q : QualifiedName) : [] ∉ qualified q := by
  refine nil_notMem_sepBy fun l hl => ?_
  obtain ⟨id, -, rfl⟩ := List.mem_map.mp hl
  exact nil_notMem_ident id

theorem leads_type (t : TypeRef) : Leads OpensStatement (type t) := by
  unfold type
  split
  · exact leads_qualified _
  · exact (leads_word (by decide)).add (leads_word (by decide))
  · next builtin hnamed hdouble =>
    cases htype : t.type with
    | named name => exact absurd htype (hnamed name)
    | _ => exact leads_word (by decide)

theorem nil_notMem_type (t : TypeRef) : [] ∉ type t := by
  unfold type
  split
  · exact nil_notMem_qualified _
  · exact fun h => h.elim (nil_notMem_word _) (nil_notMem_word _)
  · exact nil_notMem_word _

theorem Leads.ranked {r : Nat} {e : Expr} (h : Leads P l) : Leads P (ranked r e l) := by
  unfold Grammar.ranked
  split
  · exact h
  · exact Leads.zero

theorem nil_notMem_ranked (r : Nat) (e : Expr) : [] ∉ ranked r e (produced e) := by
  unfold ranked
  split
  · have hexpr := nil_notMem_expr e
    rwa [expr, exprAt_of_le (Nat.zero_le _)] at hexpr
  · exact fun h => h

theorem leads_produced : ∀ e : Expr, Leads OpensStatement (produced e)
  | .int .. | .double .. | .str .. | .name .. => Leads.token fun _ => rfl
  | .bool _ true | .bool _ false | .null _ | .thisRef _ => leads_word (by decide)
  | .paren _ e => by
    rw [produced, mul_assoc]
    exact (leads_sign (by decide)).before (nil_notMem_sign _) _
  | .new _ t args => by
    rw [produced, mul_assoc]
    exact (leads_word (by decide)).before (nil_notMem_word _) _
  | .member _ e name => by
    rw [produced, mul_assoc]
    exact (leads_produced e).ranked.before (nil_notMem_ranked _ _) _
  | .call _ e args => by
    rw [produced]
    exact (leads_produced e).ranked.before (nil_notMem_ranked _ _) _
  | .step _ op false e => by
    rw [produced]
    exact (leads_produced e).ranked.before (nil_notMem_ranked _ _) _
  | .step _ op true e => by
    rw [produced]
    exact (leads_sign (by cases op <;> decide)).before (nil_notMem_sign _) _
  | .unary _ op e => by
    rw [produced]
    exact (leads_sign (by cases op <;> decide)).before (nil_notMem_sign _) _
  | .binary _ op a b => by
    have hleft := fun r => (leads_produced a).ranked.before (nil_notMem_ranked r a)
    cases op <;> simpa only [produced, mul_assoc] using hleft _ _
  | .cond _ test yes no => by
    rw [produced]
    simp only [mul_assoc]
    exact (leads_produced test).ranked.before (nil_notMem_ranked _ _) _
  | .assign _ op target value => by
    rw [produced, mul_assoc]
    exact (leads_produced target).ranked.before (nil_notMem_ranked _ _) _

theorem leads_expr (e : Expr) : Leads OpensStatement (expr e) := by
  rw [expr, exprAt]
  exact (leads_produced e).ranked

theorem leads_localDecl (d : LocalDecl) : Leads OpensStatement (localDecl d) := by
  unfold localDecl
  rw [mul_assoc]
  refine Leads.mul ?_ ((leads_type d.type).before (nil_notMem_type _) _)
  split
  · exact leads_word (by decide)
  · exact Leads.one

theorem nil_notMem_localDecl (d : LocalDecl) : [] ∉ localDecl d :=
  Parser.nil_notMem_mul_left (Parser.nil_notMem_mul_right (nil_notMem_type _))

theorem leads_stmt (s : Stmt) : Leads OpensStatement (stmt s) := by
  have hword : ∀ {text : String} (l : Language TokenKind), (∀ k ∈ declarative, k.text ≠ text) →
      Leads OpensStatement (word text * l) :=
    fun l h => (leads_word h).before (nil_notMem_word _) l
  cases s with
  | empty => exact leads_sign (by decide)
  | block =>
    rw [stmt, mul_assoc]
    exact (leads_sign (by decide)).before (nil_notMem_sign _) _
  | declare _ d => exact (leads_localDecl d).before (nil_notMem_localDecl d) _
  | expr _ e => exact (leads_expr e).before (nil_notMem_expr e) _
  | ifElse _ test yes no =>
    cases no with
    | none => simpa only [stmt, mul_assoc] using hword _ (by decide)
    | some no => simpa only [stmt, mul_assoc] using hword _ (by decide)
  | _ => simpa only [stmt, mul_assoc] using hword _ (by decide)

theorem leads_hostStmts (ss : List Stmt) : Leads OpensStatement (hostStmts ss) := by
  cases ss with
  | nil => exact Leads.one
  | cons s rest =>
    cases rest with
    | cons t rest =>
      rw [hostStmts_cons_cons]
      exact (leads_stmt s).before (nil_notMem_stmt s) _
    | nil =>
      cases s with
      | expr _ e => exact (leads_expr e).before (nil_notMem_expr e) _
      | _ => exact (leads_stmt _).before (nil_notMem_stmt _) _

theorem nil_notMem_hostStmts {ss : List Stmt} (h : ss ≠ []) : [] ∉ hostStmts ss := by
  cases ss with
  | nil => exact absurd rfl h
  | cons s rest =>
    cases rest with
    | cons t rest =>
      rw [hostStmts_cons_cons]
      exact Parser.nil_notMem_mul_left (nil_notMem_stmt s)
    | nil =>
      cases s with
      | expr _ e => exact Parser.nil_notMem_mul_left (nil_notMem_expr e)
      | _ => exact Parser.nil_notMem_mul_left (nil_notMem_stmt _)

/-- The modifiers that classification does not take for the beginning of a declaration. -/
def unannounced : List TokenKind :=
  [.keyword .readonlyKw, .keyword .overrideKw, .keyword .constKw, .keyword .virtualKw]

/-- A token that makes a chunk one of declarations, whatever follows it, the four modifiers apart. -/
def OpensDeclaration (k : TokenKind) : Prop :=
  k ∉ unannounced → ∀ second, ChunkClass.ofKinds k second = .declarations

theorem leads_modifier (m : Modifier) : Leads OpensDeclaration (word m.text) := by
  cases m with
  | publicAccess => exact leads_keyword .publicKw fun _ _ => rfl
  | privateAccess => exact leads_keyword .privateKw fun _ _ => rfl
  | protectedAccess => exact leads_keyword .protectedKw fun _ _ => rfl
  | internalAccess => exact leads_keyword .internalKw fun _ _ => rfl
  | staticMember => exact leads_keyword .staticKw fun _ _ => rfl
  | abstractMember => exact leads_keyword .abstractKw fun _ _ => rfl
  | sealedType => exact leads_keyword .sealedKw fun _ _ => rfl
  | readonlyField => exact leads_keyword .readonlyKw fun h => absurd (by decide) h
  | constField => exact leads_keyword .constKw fun h => absurd (by decide) h
  | virtualMember => exact leads_keyword .virtualKw fun h => absurd (by decide) h
  | overrideMember => exact leads_keyword .overrideKw fun h => absurd (by decide) h

theorem leads_typeKind (kind : TypeKind) : Leads OpensDeclaration (word kind.text) := by
  cases kind with
  | classKind => exact leads_keyword .classKw fun _ _ => rfl
  | structKind => exact leads_keyword .structKw fun _ _ => rfl
  | interfaceKind => exact leads_keyword .interfaceKw fun _ _ => rfl
  | enumKind => exact leads_keyword .enumKw fun _ _ => rfl

theorem leads_attributes (qs : List QualifiedName) : Leads OpensDeclaration (attributes qs) := by
  rintro w ⟨groups, -, hw⟩
  refine Leads.prod (fun l hl => ?_) w hw
  obtain ⟨names, -, rfl⟩ := List.mem_map.mp hl
  rw [attributeGroup, mul_assoc]
  have hopen : Leads OpensDeclaration (sign "[") := by
    rw [show "[" = Symbol.text .openBracket from rfl, sign_text]
    exact Leads.token fun _ _ => rfl
  exact hopen.before (nil_notMem_sign _) _

theorem leads_typeWith (h : TypeHead) (l : Language TokenKind) :
    Leads OpensDeclaration (typeWith h l) := by
  have hmods : Leads OpensDeclaration (modifiers h.modifiers) := by
    refine Leads.prod fun l hl => ?_
    obtain ⟨m, -, rfl⟩ := List.mem_map.mp hl
    exact leads_modifier m
  have hkind := (leads_typeKind h.kind).before (nil_notMem_word _)
  simp only [typeWith, typeHead, mul_assoc]
  exact (leads_attributes h.attributes).mul (hmods.mul (hkind _))

theorem leads_namespaceMember (m : NamespaceMember) : Leads OpensDeclaration (namespaceMember m) := by
  cases m with
  | space span name ms =>
    rw [namespaceMember]
    simp only [mul_assoc]
    have hspace : Leads OpensDeclaration (word "namespace") :=
      leads_keyword .namespaceKw fun _ _ => rfl
    exact hspace.before (nil_notMem_word _) _
  | type d => exact leads_typeWith d.head _

theorem leads_namespaceMembers (ms : List NamespaceMember) :
    Leads OpensDeclaration (namespaceMembers ms) := by
  rw [namespaceMembers_eq]
  refine Leads.prod fun l hl => ?_
  obtain ⟨m, -, rfl⟩ := List.mem_map.mp hl
  exact leads_namespaceMember m

theorem usingDirective_begins {u : UsingDirective} {w : List TokenKind} (hw : w ∈ usingDirective u) :
    ∃ name rest, w = .keyword .usingKw :: .ident name :: rest := by
  rw [usingDirective, mul_assoc, mul_assoc] at hw
  obtain ⟨x, hx, y, hy, rfl⟩ := Language.mem_mul.mp hw
  rw [show "using" = Keyword.text .usingKw from rfl, word_text] at hx
  obtain rfl : x = [.keyword .usingKw] := hx
  have hident : Leads (fun k => ∃ name, k = .ident name)
      (usingAlias u.aliasName * (qualified u.target * sign ";")) := by
    refine Leads.mul ?_ (Leads.before ?_ (nil_notMem_qualified _) _)
    · cases u.aliasName with
      | none => exact Leads.one
      | some id => exact (Leads.token ⟨_, rfl⟩).before (nil_notMem_ident id) _
    · refine Leads.sepBy (fun l hl => ?_) fun l hl => ?_
      · obtain ⟨id, -, rfl⟩ := List.mem_map.mp hl
        exact Leads.token ⟨_, rfl⟩
      · obtain ⟨id, -, rfl⟩ := List.mem_map.mp hl
        exact nil_notMem_ident id
  cases y with
  | nil => exact absurd hy (Parser.nil_notMem_mul_right (Parser.nil_notMem_mul_left (nil_notMem_qualified _)))
  | cons k' rest =>
    obtain ⟨name, rfl⟩ := hident _ hy k' rfl
    exact ⟨name, rest, rfl⟩

/-- The first two tokens of declarations, of which there is at least one, tell what they are. -/
theorem declarationUnit_class {u : DeclarationUnit} (hu : u.usings ≠ [] ∨ u.members ≠ [])
    {w : List TokenKind} (hw : w ∈ declarationUnit u) :
    ∃ k rest, w = k :: rest ∧
      (k ∉ unannounced → ChunkClass.ofKinds k (rest.headD .endOfInput) = .declarations) := by
  obtain ⟨x, hx, y, hy, rfl⟩ := Language.mem_mul.mp hw
  cases husings : u.usings with
  | cons d ds =>
    rw [husings, List.map_cons, List.prod_cons] at hx
    obtain ⟨v, hv, v', -, rfl⟩ := Language.mem_mul.mp hx
    obtain ⟨name, rest, rfl⟩ := usingDirective_begins hv
    exact ⟨_, _, rfl, fun _ => rfl⟩
  | nil =>
    rw [husings, List.map_nil, List.prod_nil, Language.mem_one] at hx
    subst hx
    have hmembers : u.members ≠ [] := hu.resolve_left fun h => h husings
    cases y with
    | cons k rest => exact ⟨k, rest, rfl, fun hk => leads_namespaceMembers u.members _ hy k rfl hk _⟩
    | nil =>
      obtain ⟨m, ms, hms⟩ := List.exists_cons_of_ne_nil hmembers
      rw [hms, namespaceMembers] at hy
      exact absurd hy (Parser.nil_notMem_mul_left (nil_notMem_namespaceMember m))

end Grammar

theorem Lexer.Pulls.begins {l last : Lexer} {ts : List Token} (h : l.Pulls ts last) :
    ∃ rest, ts = l.next.1 :: rest := by
  cases h with
  | stop => exact ⟨[], rfl⟩
  | more => exact ⟨_, rfl⟩

/-- A text is classified by the first two tokens of its sentence. -/
theorem classify_sentence {text : String} {k : TokenKind} {rest : List TokenKind}
    (h : sentence (lex text).tokens = k :: rest) :
    (Lexer.ofText text).next.1.kind = k ∧
      classify text = ChunkClass.ofKinds k (rest.headD .endOfInput) := by
  obtain ⟨last, hpulls⟩ : ∃ last, (Lexer.ofText text).Pulls (lex text).tokens last :=
    ⟨_, (Lexer.ofText_partition text).1⟩
  revert hpulls h
  generalize (lex text).tokens = tokens
  intro h hpulls
  cases hpulls with
  | stop hend => simp [sentence, hend] at h
  | more hfirst hmore =>
    obtain ⟨later, rfl⟩ := hmore.begins
    have hkinds : (Lexer.ofText text).next.1.kind = k ∧
        ((Lexer.ofText text).next.2.next.1.kind :: later.map Token.kind).takeWhile
          (· != .endOfInput) = rest := by
      simpa [sentence, hfirst] using h
    refine ⟨hkinds.1, ?_⟩
    have hsecond : rest.headD .endOfInput = (Lexer.ofText text).next.2.next.1.kind := by
      by_cases hend : (Lexer.ofText text).next.2.next.1.kind = .endOfInput
      · simp [← hkinds.2, hend]
      · simp [← hkinds.2, hend]
    rw [hsecond, ← hkinds.1]
    rfl

/-- No text that one of the parsers accepts is sent to the other. Statements without a problem, of which
there is at least one, are classified as statements. Declarations without a problem, of which there is at
least one, are classified as declarations, unless they begin with one of four modifiers. -/
theorem classify_accepted (src : Source) :
    (∀ unit, (parseStatements src).diagnostics.hasErrors = false →
      (parseStatements src).unit = some unit → unit.stmts ≠ [] → classify src.text = .statements) ∧
    ∀ unit, (parseDeclarations src).diagnostics.hasErrors = false →
      (parseDeclarations src).unit = some unit → unit.usings ≠ [] ∨ unit.members ≠ [] →
      (Lexer.ofText src.text).next.1.kind ∉ Grammar.unannounced →
      classify src.text = .declarations := by
  constructor
  · intro unit hclean hunit hne
    have hsentence := sentence_of_read Parser.statementUnit_parses hclean hunit
    cases hkinds : sentence (lex src.text).tokens with
    | nil => exact absurd (hkinds ▸ hsentence) (Grammar.nil_notMem_hostStmts hne)
    | cons k rest =>
      rw [(classify_sentence hkinds).2]
      rw [hkinds] at hsentence
      exact Grammar.leads_hostStmts unit.stmts _ hsentence k rfl _
  · intro unit hclean hunit hne hfirst
    have hsentence := sentence_of_read Parser.declarationUnit_parses hclean hunit
    obtain ⟨k, rest, hkinds, hclass⟩ := Grammar.declarationUnit_class hne hsentence
    obtain ⟨hk, hclassify⟩ := classify_sentence hkinds
    rw [hclassify]
    exact hclass (hk ▸ hfirst)

theorem const_read :
    (parseStatements ⟨"", "const int x = 1;"⟩).diagnostics.hasErrors = false ∧
      ((parseStatements ⟨"", "const int x = 1;"⟩).unit.any fun unit => !unit.stmts.isEmpty) = true := by
  decide +kernel

theorem using_read :
    (parseDeclarations ⟨"", "using System; class A \x7b \x7d"⟩).diagnostics.hasErrors = false ∧
      ((parseDeclarations ⟨"", "using System; class A \x7b \x7d"⟩).unit.any fun unit =>
        !unit.usings.isEmpty) = true := by
  decide +kernel

/-- A constant is a statement; behind a directive it would be a declaration. -/
theorem classify_accepted_const :
    classify "const int x = 1;" = .statements ∧
      classify "using System; class A \x7b \x7d" = .declarations := by
  constructor
  · obtain ⟨hclean, hunit⟩ := const_read
    obtain ⟨unit, hunit, hne⟩ := (Option.any_eq_true _ _).mp hunit
    exact (classify_accepted ⟨"", "const int x = 1;"⟩).1 unit hclean hunit (by simpa using hne)
  · obtain ⟨hclean, hunit⟩ := using_read
    obtain ⟨unit, hunit, hne⟩ := (Option.any_eq_true _ _).mp hunit
    exact (classify_accepted ⟨"", "using System; class A \x7b \x7d"⟩).2 unit hclean hunit
      (.inl (by simpa using hne)) (by decide)

end Chunkwise
