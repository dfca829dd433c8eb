import Chunkwise.Parser.Chunk
import Chunkwise.Proofs.Parser.Stmt

/-!
Every parser of declarations reads a sentence of what it yields. The nesting of types and namespaces is
bounded by the tokens that are left, and every level passes a token, so the bound is never met.
-/
namespace Chunkwise

namespace Grammar

theorem attributes_nil : [] ∈ attributes [] := ⟨[], rfl, rfl⟩

theorem attributes_append_le (qs new : List QualifiedName) :
    attributes qs * attributeGroup new ≤ attributes (qs ++ new) := by
  intro w hw
  obtain ⟨u, ⟨groups, hgroups, hu⟩, v, hv, rfl⟩ := Language.mem_mul.mp hw
  refine ⟨groups ++ [new], by simp [hgroups], ?_⟩
  rw [List.map_append, List.prod_append, List.map_singleton, List.prod_singleton]
  exact Language.append_mem_mul hu hv

theorem modifiers_concat (ms : List Modifier) (m : Modifier) :
    modifiers (ms ++ [m]) = modifiers ms * word m.text := by
  simp [modifiers]

/-- Members of an enum that are each followed by a comma. -/
def enumTrailed (ms : List EnumMemberDecl) : Language TokenKind :=
  trailed (sign ",") (ms.map enumMember)

theorem enumTrailed_le (ms : List EnumMemberDecl) :
    enumTrailed ms ≤ enumList (ms.map .enumMember) := by
  induction ms with
  | nil => exact le_rfl
  | cons m ms ih =>
    have hstep : enumTrailed (m :: ms) = enumMember m * sign "," * enumTrailed ms := by
      simp [enumTrailed, trailed]
    rw [hstep]
    cases ms with
    | nil =>
      simp only [enumTrailed, List.map_nil, trailed, List.prod_nil, mul_one]
      exact mul_le_mul' le_rfl fun _ hw => .inr hw
    | cons m' ms => exact mul_le_mul' le_rfl ih

theorem enumTrailed_mul_le (ms : List EnumMemberDecl) (m : EnumMemberDecl) :
    enumTrailed ms * enumMember m ≤ enumList ((ms ++ [m]).map .enumMember) := by
  induction ms with
  | nil =>
    simp only [enumTrailed, List.map_nil, trailed, List.prod_nil, one_mul]
    exact le_mul_of_one_le_right' fun _ hw => .inl hw
  | cons x ms ih =>
    have hstep : enumTrailed (x :: ms) = enumMember x * sign "," * enumTrailed ms := by
      simp [enumTrailed, trailed]
    rw [hstep, mul_assoc]
    cases ms with
    | nil => exact mul_le_mul' le_rfl ih
    | cons y ms => exact mul_le_mul' le_rfl ih

theorem members_eq (owner : String) (ms : List MemberDecl) :
    members owner ms = (ms.map (member owner)).prod := by
  induction ms with
  | nil => rfl
  | cons m ms ih => rw [members, ih, List.map_cons, List.prod_cons]

theorem namespaceMembers_eq (ms : List NamespaceMember) :
    namespaceMembers ms = (ms.map namespaceMember).prod := by
  induction ms with
  | nil => rfl
  | cons m ms ih => rw [namespaceMembers, ih, List.map_cons, List.prod_cons]

theorem nil_notMem_typeWith (h : TypeHead) (l : Language TokenKind) : [] ∉ typeWith h l :=
  Parser.nil_notMem_mul_left (Parser.nil_notMem_mul_right (nil_notMem_sign _))

theorem nil_notMem_block (b : Block) : [] ∉ block b :=
  Parser.nil_notMem_mul_right (nil_notMem_sign _)

theorem nil_notMem_member (owner : String) (m : MemberDecl) : [] ∉ member owner m := by
  cases m with
  | field d => exact Parser.nil_notMem_mul_right (nil_notMem_sign _)
  | method d =>
    refine Parser.nil_notMem_mul_left (Parser.nil_notMem_mul_right ?_)
    exact Parser.nil_notMem_mul_right (nil_notMem_sign _)
  | constructor d =>
    unfold member constructorDecl
    split
    · exact Parser.nil_notMem_mul_right (nil_notMem_block _)
    · exact fun h => h
  | enumMember d => exact fun h => h
  | nested span h ms =>
    unfold member
    exact nil_notMem_typeWith _ _

theorem nil_notMem_namespaceMember (m : NamespaceMember) : [] ∉ namespaceMember m := by
  cases m with
  | space span name ms => exact Parser.nil_notMem_mul_right (nil_notMem_sign _)
  | type d => exact nil_notMem_typeWith _ _

theorem nil_notMem_usingDirective (u : UsingDirective) : [] ∉ usingDirective u :=
  Parser.nil_notMem_mul_right (nil_notMem_sign _)

end Grammar

namespace Parser

open Grammar

variable {L : Language TokenKind}

theorem advance_current {c : Cursor} (hc : c.Clean) (hk : c.current.kind ≠ .endOfInput) :
    c.advance.current.kind = c.ahead 1 := by
  cases hl : c.later with
  | nil =>
    have hended := hc.ended
    simp only [Cursor.rest, hl, List.map_nil, List.getLast?_singleton, Option.some.injEq] at hended
    exact absurd hended hk
  | cons t rest => simp [Cursor.advance, Cursor.ahead, hl]

theorem identifier_followed {k : TokenKind} :
    Parses (fun c => {w | w ∈ L ∧ (c.current.kind.isIdent && c.ahead 1 == k) = true}) identifier
      fun id => here k (L * ident id) := by
  intro c hc
  obtain ⟨hleads, hread⟩ := identifier_reads L c hc
  refine ⟨hleads, fun w ⟨hw, hahead⟩ htotal => ?_⟩
  obtain ⟨id, v, hid, hv, hmem⟩ := hread w hw htotal
  refine ⟨id, v, hid, hv, hmem, ?_⟩
  rw [Bool.and_eq_true_iff, beq_iff_eq] at hahead
  cases hk : c.current.kind with
  | ident name => rw [identifier_run hk, advance_current hc (by simp [hk]), hahead.2]
  | _ => simp [hk, TokenKind.isIdent] at hahead

theorem identifier_here (name : String) :
    Parses (here (.ident name) L) identifier fun id _ => {w | w ∈ L * ident id ∧ id.name = name} := by
  intro c hc
  obtain ⟨hleads, hread⟩ := identifier_reads L c hc
  refine ⟨hleads, fun w ⟨hw, hk⟩ htotal => ?_⟩
  obtain ⟨id, v, hid, hv, hmem⟩ := hread w hw htotal
  refine ⟨id, v, hid, hv, hmem, ?_⟩
  rw [identifier_run hk] at hid
  cases hid
  rfl

theorem usingAlias_reads : Reads Parser.usingAlias Grammar.usingAlias := by
  intro L
  refine Parses.gets.bind fun named => ?_
  cases named with
  | false => exact Parses.pure fun _ w hw => (mul_one L).symm ▸ hw.1
  | true =>
    refine identifier_followed.bind fun id => (Parses.advance (by simp)).bind fun _ => ?_
    refine Parses.pure fun _ => ?_
    rw [mul_assoc]
    exact mul_le_mul' le_rfl (mul_le_mul' le_rfl (Set.singleton_subset_iff.mpr (sign_self .assign)))

theorem usingDirective_reads : Reads Parser.usingDirective Grammar.usingDirective := by
  intro L
  refine Parses.look fun start => (expectKeyword_reads .usingKw).bind fun _ => ?_
  refine usingAlias_reads.bind fun a? => qualifiedName_reads.bind fun target => ?_
  refine (expectSymbol_reads .semicolon).bind fun _ => Parses.span fun span => ?_
  refine Parses.pure fun _ => le_of_eq ?_
  simp only [Grammar.usingDirective, mul_assoc, Keyword.text, Symbol.text]

theorem usingDirectives_reads :
    Reads usingDirectives fun us => (us.map Grammar.usingDirective).prod := by
  intro L
  have hstart : L = L * (([] : List UsingDirective).map Grammar.usingDirective).prod := by simp
  refine Parses.mono (Parses.repeatFrom (I := fun us _ => L * (us.map Grammar.usingDirective).prod)
    (fun n us => ?_) []) (fun _ => le_of_eq hstart) fun _ _ => le_rfl
  refine Parses.look fun found => ?_
  cases found with
  | false => exact Parses.pure fun _ => sized_le _ _
  | true =>
  refine Parses.look fun full => ?_
  cases full with
  | true => exact Parses.pure fun _ => sized_le _ _
  | false =>
  refine (usingDirective_reads _).optional.bind fun u? => ?_
  cases u? with
  | some u =>
    refine Parses.pure fun _ => sized_mul_le (nil_notMem_usingDirective u) (le_of_eq ?_) n
    simp
  | none => exact synchronize_parses.bind (B := fun _ _ => 0) fun _ => nothing_parses

theorem attribute_then {β : Type} {q : QualifiedName} {p : Parser β}
    {C : β → Cursor → Language TokenKind} (hp : Parses (fun _ => L * attributeName q) p C) :
    Parses (fun _ => L * qualified q) (do
      if ← checkSymbol .openParen then
        let _ ← Parser.arguments expression
      p) C := by
  refine Parses.look fun found => ?_
  unfold attributeName at hp
  rw [← mul_assoc] at hp
  split
  · refine (arguments_reads expression_reads).bind fun args => hp.mono (fun _ => ?_) fun _ _ => le_rfl
    exact mul_le_mul' le_rfl fun w hw => .inr ⟨args, hw⟩
  · exact hp.mono (fun _ => le_mul_of_one_le_right' fun _ hw => .inl hw) fun _ _ => le_rfl

/-- The attributes after those found before, each followed by a comma. -/
def trailedAfter (L : Language TokenKind) (found qs : List QualifiedName) : Language TokenKind :=
  {w | ∃ new, qs = found ++ new ∧ w ∈ L * trailed (sign ",") (new.map attributeName)}

/-- The attributes after those found before. -/
def listedAfter (L : Language TokenKind) (found qs : List QualifiedName) : Language TokenKind :=
  {w | ∃ new, qs = found ++ new ∧ w ∈ L * attributeNames new}

theorem trailedAfter_concat_le (found qs : List QualifiedName) (q : QualifiedName) :
    trailedAfter L found qs * (attributeName q * sign ",") ≤ trailedAfter L found (qs ++ [q]) := by
  intro w hw
  obtain ⟨u, ⟨new, rfl, hu⟩, v, hv, rfl⟩ := Language.mem_mul.mp hw
  refine ⟨new ++ [q], by simp, ?_⟩
  rw [List.map_append, List.map_singleton, trailed_concat, ← mul_assoc]
  exact Language.append_mem_mul hu hv

theorem listedAfter_concat_le (found qs : List QualifiedName) (q : QualifiedName) :
    trailedAfter L found qs * attributeName q ≤ listedAfter L found (qs ++ [q]) := by
  intro w hw
  obtain ⟨u, ⟨new, rfl, hu⟩, v, hv, rfl⟩ := Language.mem_mul.mp hw
  have hlist := trailed_mul_le (sign ",") (new.map attributeName) (attributeName q)
  have hall : L * attributeNames (new ++ [q]) =
      L * sepBy (sign ",") (new.map attributeName ++ [attributeName q]) := by
    rw [attributeNames, List.map_append, List.map_singleton]
  refine ⟨new ++ [q], by simp, ?_⟩
  rw [hall]
  refine mul_le_mul' le_rfl hlist ?_
  rw [← mul_assoc]
  exact Language.append_mem_mul hu hv

theorem attributeGroup_parses (found : List QualifiedName) :
    Parses (fun _ => L) (Parser.attributeGroup found) fun qs _ =>
      listedAfter L found qs * sign "]" := by
  refine Parses.bind (B := fun qs _ => listedAfter L found qs) ?_ fun qs =>
    (expectSymbol_reads .closeBracket).bind fun _ => Parses.pure fun _ => le_rfl
  have hstart : L ≤ trailedAfter L found found :=
    fun w hw => ⟨[], (List.append_nil found).symm, (mul_one L).symm ▸ hw⟩
  refine Parses.mono (Parses.repeatFrom (I := fun qs _ => trailedAfter L found qs) (fun n qs => ?_) found)
    (fun _ => hstart) fun _ _ => le_rfl
  refine qualifiedName_reads.bind fun q => attribute_then ?_
  refine eatSymbol_then .comma (Parses.pure fun _ => ?_) (Parses.pure fun _ => ?_)
  · rw [mul_assoc]
    exact sized_mul_longer (nil_notMem_mul_right (nil_notMem_sign _))
      (trailedAfter_concat_le found qs q) n
  · exact le_trans (mul_le_mul' (sized_le _ _) le_rfl) (listedAfter_concat_le found qs q)

theorem attributes_reads : Reads Parser.attributes Grammar.attributes := by
  intro L
  have hstart : L ≤ L * Grammar.attributes [] := by
    intro w hw
    rw [← List.append_nil w]
    exact Language.append_mem_mul hw attributes_nil
  refine Parses.mono (Parses.repeatFrom (I := fun qs _ => L * Grammar.attributes qs) (fun n qs => ?_) [])
    (fun _ => hstart) fun _ _ => le_rfl
  refine eatSymbol_then .openBracket ?_ (Parses.pure fun _ => sized_le _ _)
  refine (attributeGroup_parses qs).bind fun qs' => Parses.pure fun _ w hw => ?_
  obtain ⟨u, ⟨new, rfl, hu⟩, v, hv, rfl⟩ := Language.mem_mul.mp hw
  have hgroup : u ++ v ∈ sized n (L * Grammar.attributes qs) * Grammar.attributeGroup new := by
    rw [Grammar.attributeGroup, ← mul_assoc, ← mul_assoc]
    exact Language.append_mem_mul hu hv
  exact sized_mul_le (nil_notMem_mul_right (nil_notMem_sign _)) (attributes_append_le qs new) n hgroup

theorem modifier?_sound {k : TokenKind} {m : Modifier} (h : modifier? k = some m) :
    k ≠ .endOfInput ∧ [k] ∈ word m.text := by
  cases k with
  | keyword k =>
    refine ⟨by simp, ?_⟩
    cases k <;> cases h <;> exact ⟨_, rfl, rfl⟩
  | _ => cases h

theorem modifiers_reads : Reads Parser.modifiers Grammar.modifiers := by
  intro L
  refine Parses.mono (Parses.repeatFrom (I := fun ms _ => L * Grammar.modifiers ms) (fun n ms => ?_) [])
    (fun _ => le_of_eq (mul_one L).symm) fun _ _ => le_rfl
  refine Parses.peek fun k => ?_
  split
  · next m hm =>
    obtain ⟨hk, hmem⟩ := modifier?_sound hm
    refine (Parses.advance hk).bind fun _ => Parses.pure fun _ => ?_
    refine sized_mul_le (nil_notMem_token k) ?_ n
    rw [modifiers_concat]
    exact mul_le_mul' le_rfl (Set.singleton_subset_iff.mpr hmem)
  · exact Parses.anywhere (Parses.pure fun _ => sized_le _ _)

theorem typeKind?_sound {k : TokenKind} {kind : TypeKind} (h : typeKind? k = some kind) :
    k ≠ .endOfInput ∧ [k] ∈ word kind.text := by
  cases k with
  | keyword k =>
    refine ⟨by simp, ?_⟩
    cases k <;> cases h <;> exact ⟨_, rfl, rfl⟩
  | _ => cases h

theorem baseName_reads (kind : TypeKind) : Reads (Parser.baseName kind) (Grammar.baseName kind) := by
  intro L
  refine Parses.peek fun k => Parses.look fun span => ?_
  split
  · next hunder =>
    simp only [Bool.and_eq_true, beq_iff_eq, Bool.or_eq_true] at hunder
    obtain ⟨rfl, hk⟩ := hunder
    have hne : k ≠ .endOfInput := by rcases hk with rfl | rfl <;> simp
    refine (Parses.advance hne).bind fun _ => Parses.pure fun _ => mul_le_mul' le_rfl ?_
    refine Set.singleton_subset_iff.mpr (.inr ⟨rfl, ?_⟩)
    rcases hk with rfl | rfl
    · exact ⟨"int", .inl rfl, rfl, word_self .intKw⟩
    · exact ⟨"long", .inr rfl, rfl, word_self .longKw⟩
  · refine Parses.anywhere ((qualifiedName_reads L).mono (fun _ => le_rfl) fun q _ => ?_)
    exact mul_le_mul' le_rfl fun _ hw => .inl hw

theorem bases_reads (kind : TypeKind) : Reads (Parser.bases kind) (Grammar.bases kind) := by
  intro L
  refine eatSymbol_then .colon ?_ (Parses.pure fun _ => le_of_eq (mul_one L).symm)
  refine (baseName_reads kind).bind fun first => ?_
  have hlisted : ∀ qs, L * sign ":" * sepBy (sign ",") (qs.map (Grammar.baseName kind)) ≤
      L * Grammar.bases kind qs := by
    intro qs
    cases qs with
    | nil => exact le_of_eq_of_le (mul_zero _) bot_le
    | cons q qs =>
      rw [mul_assoc]
      exact le_rfl
  refine Parses.mono (Parses.repeatFrom
    (I := fun qs _ => L * sign ":" * sepBy (sign ",") (qs.map (Grammar.baseName kind)))
    (fun n qs => ?_) [first]) (fun _ => le_rfl) fun qs _ => hlisted qs
  refine eatSymbol_then .comma ((baseName_reads kind).bind fun q => Parses.pure fun _ => ?_)
    (Parses.pure fun _ => sized_le _ _)
  rw [mul_assoc]
  refine sized_mul_le (nil_notMem_mul_left (nil_notMem_sign _)) ?_ n
  have hlist := sepBy_concat_le (sign ",") (qs.map (Grammar.baseName kind))
    (Grammar.baseName kind q)
  simpa [mul_assoc, Symbol.text] using hlist

theorem typeHead_parses (attrs : List QualifiedName) (mods : List Modifier) :
    Parses (fun _ => L * Grammar.attributes attrs * Grammar.modifiers mods)
      (Parser.typeHead attrs mods) fun h _ => L * Grammar.typeHead h := by
  refine Parses.peek fun k => ?_
  split
  · next kind hkind =>
    obtain ⟨hk, hmem⟩ := typeKind?_sound hkind
    refine (Parses.advance hk).bind fun _ => identifier_reads.bind fun name => ?_
    refine (bases_reads kind).bind fun qs => Parses.pure fun _ => ?_
    simp only [Grammar.typeHead, mul_assoc]
    refine mul_le_mul' le_rfl (mul_le_mul' le_rfl (mul_le_mul' le_rfl (mul_le_mul' ?_ le_rfl)))
    exact Set.singleton_subset_iff.mpr hmem
  · exact expected_parses _

theorem params_reads : Reads Parser.params Grammar.params :=
  parenthesised_reads fun _ n ps => typeRef_reads.bind fun type => identifier_reads.bind fun name => by
    rw [mul_assoc]
    exact item_then (G := param) n ps ⟨type, name, type.span.merge name.span⟩

/-- The members of an enum read so far. -/
def enumSoFar (L : Language TokenKind) (ms : List MemberDecl) : Language TokenKind :=
  {w | ∃ ds : List EnumMemberDecl, ms = ds.map .enumMember ∧ w ∈ L * enumTrailed ds}

theorem enumSoFar_le (ms : List MemberDecl) : enumSoFar L ms ≤ L * enumList ms := by
  rintro w ⟨ds, rfl, hw⟩
  exact mul_le_mul' le_rfl (enumTrailed_le ds) hw

theorem enumSoFar_concat_le (ms : List MemberDecl) (d : EnumMemberDecl) :
    enumSoFar L ms * (Grammar.enumMember d * sign ",") ≤ enumSoFar L (ms ++ [MemberDecl.enumMember d]) := by
  intro w hw
  obtain ⟨u, ⟨ds, rfl, hu⟩, v, hv, rfl⟩ := Language.mem_mul.mp hw
  refine ⟨ds ++ [d], by simp, ?_⟩
  rw [enumTrailed, List.map_append, List.map_singleton, trailed_concat, ← mul_assoc]
  exact Language.append_mem_mul hu hv

theorem enumSoFar_last_le (ms : List MemberDecl) (d : EnumMemberDecl) :
    enumSoFar L ms * Grammar.enumMember d ≤ L * enumList (ms ++ [MemberDecl.enumMember d]) := by
  intro w hw
  obtain ⟨u, ⟨ds, rfl, hu⟩, v, hv, rfl⟩ := Language.mem_mul.mp hw
  have hlist : L * (enumTrailed ds * Grammar.enumMember d) ≤
      L * enumList (ds.map .enumMember ++ [MemberDecl.enumMember d]) := by
    have hlast := enumTrailed_mul_le ds d
    rw [List.map_append, List.map_singleton] at hlast
    exact mul_le_mul' le_rfl hlast
  apply hlist
  rw [← mul_assoc]
  exact Language.append_mem_mul hu hv

theorem enumMembers_reads : Reads enumMembers enumList := by
  intro L
  refine Parses.mono (Parses.repeatFrom (I := fun ms _ => enumSoFar L ms) (fun n ms => ?_) [])
    (fun _ w hw => ⟨[], rfl, (mul_one L).symm ▸ hw⟩) fun _ _ => le_rfl
  refine Parses.look fun done => ?_
  cases done with
  | true => exact Parses.pure fun _ => le_trans (sized_le _ _) (enumSoFar_le ms)
  | false =>
  refine identifier_reads.bind fun name => initializer_reads.bind fun value => ?_
  refine Parses.span fun span => ?_
  refine eatSymbol_then .comma (Parses.pure fun _ => ?_) (Parses.pure fun _ => ?_)
  · rw [mul_assoc (sized n _), mul_assoc]
    exact sized_mul_longer (nil_notMem_mul_right (nil_notMem_sign _))
      (enumSoFar_concat_le ms ⟨name, value, span⟩) n
  · rw [mul_assoc]
    exact le_trans (mul_le_mul' (sized_le _ _) le_rfl) (enumSoFar_last_le ms ⟨name, value, span⟩)

theorem methodBody_reads : Reads Parser.methodBody Grammar.methodBody := by
  intro L
  refine eatSymbol_then .semicolon (Parses.pure fun _ => le_rfl) ?_
  exact body_reads.bind fun b => Parses.pure fun _ => le_rfl

/-- The head of a member that is not a type. -/
def memberHead (L : Language TokenKind) (mods : List Modifier) : Language TokenKind :=
  L * lostAttributes * Grammar.modifiers mods

theorem constructorDecl_parses (start : Span) (mods : List Modifier) (owner : String) :
    Parses (here (.ident owner) (memberHead L mods)) (Parser.constructorDecl start mods)
      fun m _ => L * Grammar.member owner m := by
  refine (identifier_here owner).bind fun name => ?_
  refine params_reads.bind fun ps => body_reads.bind fun b => ?_
  refine Parses.span fun span => Parses.pure fun _ w hw => ?_
  obtain ⟨u, hu, v, hv, rfl⟩ := Language.mem_mul.mp hw
  obtain ⟨x, ⟨hx, hname⟩, y, hy, rfl⟩ := Language.mem_mul.mp hu
  have hall : memberHead L mods * ident name * Grammar.params ps * Grammar.block b =
      L * Grammar.member owner (.constructor ⟨mods, name, ps, b, span⟩) := by
    simp only [memberHead, Grammar.member, Grammar.constructorDecl, if_pos hname, mul_assoc]
  rw [← hall]
  exact Language.append_mem_mul (Language.append_mem_mul hx hy) hv

theorem methodDecl_parses (start : Span) (mods : List Modifier) (type : TypeRef) (owner : String) :
    Parses (fun _ => memberHead L mods * Grammar.type type) (Parser.methodDecl start mods type)
      fun m _ => L * Grammar.member owner m := by
  refine identifier_reads.bind fun name => params_reads.bind fun ps => ?_
  refine methodBody_reads.bind fun b => Parses.span fun span => Parses.pure fun _ => le_of_eq ?_
  simp only [memberHead, Grammar.member, Grammar.methodDecl, mul_assoc]

theorem fieldDecl_parses (start : Span) (mods : List Modifier) (type : TypeRef) (owner : String) :
    Parses (fun _ => memberHead L mods * Grammar.type type) (Parser.fieldDecl start mods type)
      fun m _ => L * Grammar.member owner m := by
  refine declarators_reads.bind fun ds => (expectSymbol_reads .semicolon).bind fun _ => ?_
  refine Parses.span fun span => Parses.pure fun _ => le_of_eq ?_
  simp only [memberHead, Grammar.member, Grammar.fieldDecl, mul_assoc, Symbol.text]

/-- What is asked of the parser of nested types at cursors of which `R` holds. -/
def ReadsType (R : Cursor → Prop) (nested : TypeParser) : Prop :=
  ∀ L start attrs mods, Parses (under R fun _ => L * Grammar.attributes attrs * Grammar.modifiers mods)
    (nested start attrs mods) fun d _ => L * Grammar.typeDecl d

theorem member_parses {R : Cursor → Prop} (hR : Onward R) {nested : TypeParser}
    (hnested : ReadsType R nested) (owner : String) :
    Parses (under R fun _ => L) (Parser.member nested owner) fun m _ => L * Grammar.member owner m := by
  refine Parses.look fun start => (attributes_reads.under hR).bind fun attrs => ?_
  refine (modifiers_reads.under hR).bind fun mods => Parses.gets.bind fun k => ?_
  split
  · refine ((hnested L start attrs mods).mono (fun _ _ hw => hw.1) fun _ _ => le_rfl).bind fun d => ?_
    exact Parses.pure fun _ => le_rfl
  -- from here on the attributes are lost
  have hlost : L * Grammar.attributes attrs * Grammar.modifiers mods ≤ memberHead L mods :=
    mul_le_mul' (mul_le_mul' le_rfl fun w hw => ⟨attrs, hw⟩) le_rfl
  have hother : Parses (fun _ => memberHead L mods) (do
      let type ← typeRef
      if ← looksLikeMethod then Parser.methodDecl start mods type
      else Parser.fieldDecl start mods type) fun m _ => L * Grammar.member owner m := by
    refine typeRef_reads.bind fun type => Parses.look fun found => ?_
    split
    · exact methodDecl_parses start mods type owner
    · exact fieldDecl_parses start mods type owner
  refine Parses.mono (A := here k (memberHead L mods)) ?_ (fun _ w hw => ⟨hlost hw.1.1, hw.2⟩)
    fun _ _ => le_rfl
  refine Parses.look fun called => ?_
  split
  · next hctor =>
    have hk : k = .ident owner := eq_of_beq (Bool.and_eq_true_iff.mp hctor).1
    subst hk
    exact constructorDecl_parses start mods owner
  · exact Parses.anywhere hother

theorem memberList_parses {R : Cursor → Prop} (hR : Onward R) {nested : TypeParser}
    (hnested : ReadsType R nested) (owner : String) :
    Parses (under R fun _ => L) (memberList nested owner)
      fun ms _ => L * Grammar.members owner ms := by
  simp only [members_eq]
  have hstart : L = L * (([] : List MemberDecl).map (Grammar.member owner)).prod := by simp
  refine Parses.mono (Parses.repeatFrom
    (I := fun ms => under R fun _ => L * (ms.map (Grammar.member owner)).prod) (fun n ms => ?_) [])
    (fun _ _ hw => ⟨hstart ▸ hw.1, hw.2⟩) fun _ _ => le_rfl
  refine Parses.look fun closed => ?_
  cases closed with
  | true => exact Parses.pure fun _ _ hw => hw.1.1
  | false =>
  refine Parses.look fun ended => ?_
  cases ended with
  | true => exact Parses.pure fun _ _ hw => hw.1.1
  | false =>
  refine Parses.look fun full => ?_
  cases full with
  | true => exact Parses.pure fun _ _ hw => hw.1.1
  | false =>
  refine Parses.mono (A := under R fun _ => sized n (L * (ms.map (Grammar.member owner)).prod)) ?_
    (fun _ _ hw => ⟨⟨hw.1.1, hw.2⟩, hw.1.2⟩) fun _ _ => le_rfl
  refine Parses.look fun before =>
    (Parses.onward hR (member_parses hR hnested owner)).optional.bind fun m? => ?_
  cases m? with
  | some m =>
    have hgrown : sized n (L * (ms.map (Grammar.member owner)).prod) * Grammar.member owner m ≤
        longer n (L * ((ms ++ [m]).map (Grammar.member owner)).prod) :=
      sized_mul_le (nil_notMem_member owner m) (le_of_eq (by simp)) n
    exact Parses.pure fun _ w hw => ⟨⟨(hgrown hw.1).1, hw.2⟩, (hgrown hw.1).2⟩
  | none =>
    refine Parses.look fun ended => ?_
    cases ended with
    | true => exact fun c hc => ⟨.refl hc, fun _ hw => hw.elim⟩
    | false => exact forced_parses

theorem typeAfterModifiers_reads (limit : Nat) :
    ReadsType (·.remaining ≤ limit) (typeAfterModifiers limit) := by
  induction limit with
  | zero =>
    intro L start attrs mods c hc
    refine ⟨.refl hc, fun w hw _ => ?_⟩
    have hpos : 0 < c.remaining := Nat.succ_pos _
    exact absurd hw.2 (by omega)
  | succ limit ih =>
    intro L start attrs mods
    have hhead : Parses (under (·.remaining ≤ limit + 1) fun _ =>
        L * Grammar.attributes attrs * Grammar.modifiers mods) (Parser.typeHead attrs mods)
        fun h _ => L * Grammar.typeHead h :=
      (typeHead_parses attrs mods).mono (fun _ _ hw => hw.1) fun _ _ => le_rfl
    refine (hhead.onward (onward_remaining (limit + 1))).bind fun head => ?_
    refine ((expectSymbol_reads .openBrace).shrinks (fun _ => nil_notMem_sign _) limit).bind fun _ => ?_
    -- what follows the members, whichever parser reads them
    have hclose : ∀ ms, Parses (fun _ => L * Grammar.typeHead head * sign "\x7b" *
        (if head.kind = .enumKind then enumList ms else members head.name.name ms)) (do
          expectSymbol .closeBrace
          let _ ← eatSymbol .semicolon
          return ⟨head, ms, ← spanFrom start⟩) fun d _ => L * Grammar.typeDecl d := by
      intro ms
      refine (expectSymbol_reads .closeBrace).bind fun _ => ?_
      refine (eat_parses (by simp) (sign_self .semicolon)).bind fun closed => Parses.span fun span => ?_
      refine Parses.pure fun _ => ?_
      simp only [Grammar.typeDecl, typeWith, ← mul_assoc]
      cases closed with
      | true => exact mul_le_mul' le_rfl fun _ hw => .inr hw
      | false => exact le_mul_of_one_le_right' fun _ hw => .inl hw
    -- the brace has been passed, so one level less is enough for what is inside
    have hmembers := memberList_parses (L := L * Grammar.typeHead head * sign "\x7b")
      (onward_remaining limit) ih head.name.name
    split
    · next henum =>
      refine ((enumMembers_reads _).mono (fun _ _ hw => hw.1) fun _ _ => le_rfl).bind fun ms => ?_
      exact (hclose ms).mono (fun _ => le_of_eq (by rw [if_pos henum]; rfl)) fun _ _ => le_rfl
    · next hother =>
      refine hmembers.bind fun ms => (hclose ms).mono (fun _ => ?_) fun _ _ => le_rfl
      rw [if_neg hother]

theorem typeDecl_reads : Reads Parser.typeDecl Grammar.typeDecl := by
  intro L
  refine Parses.look fun start => attributes_reads.bind fun attrs => modifiers_reads.bind fun mods => ?_
  refine Parses.gets.bind fun limit => ?_
  exact (typeAfterModifiers_reads limit L start attrs mods).mono
    (fun _ _ hw => ⟨hw.1, Nat.le_of_eq hw.2⟩) fun _ _ => le_rfl

theorem namespaceMember_parses {m : Nat} {inner : Parser (List NamespaceMember)}
    (hinner : ∀ L, Parses (under (·.remaining ≤ m) fun _ => L) inner
      fun ms _ => L * Grammar.namespaceMembers ms) :
    Parses (under (·.remaining ≤ m + 1) fun _ => L) (Parser.namespaceMember inner)
      fun x _ => L * Grammar.namespaceMember x := by
  refine Parses.look fun found => ?_
  cases found with
  | false =>
    refine ((typeDecl_reads L).mono (fun _ _ hw => hw.1) fun _ _ => le_rfl).bind fun d => ?_
    exact Parses.pure fun _ => le_rfl
  | true =>
    refine Parses.look fun start => ?_
    refine ((expectKeyword_reads .namespaceKw).shrinks (fun _ => nil_notMem_word _) m).bind fun _ => ?_
    refine (qualifiedName_reads.under (onward_remaining m)).bind fun name => ?_
    refine ((expectSymbol_reads .openBrace).under (onward_remaining m)).bind fun _ => ?_
    refine (hinner _).bind fun ms => (expectSymbol_reads .closeBrace).bind fun _ => ?_
    refine Parses.span fun span => Parses.pure fun _ => le_of_eq ?_
    simp only [Grammar.namespaceMember, mul_assoc, Keyword.text, Symbol.text]

theorem namespaceMembers_parses (limit : Nat) (topLevel : Bool) :
    Parses (under (·.remaining ≤ limit) fun _ => L) (Parser.namespaceMembers limit topLevel)
      fun ms c => {w | w ∈ L * Grammar.namespaceMembers ms ∧
        (topLevel = false ∨ c.atEnd = true ∨ c.issues.isFull = true)} := by
  induction limit generalizing topLevel L with
  | zero =>
    intro c hc
    refine ⟨.refl hc, fun w hw _ => ?_⟩
    have hpos : 0 < c.remaining := Nat.succ_pos _
    exact absurd hw.2 (by omega)
  | succ limit ih =>
    simp only [namespaceMembers_eq]
    refine elements_parses (S := fun _ => topLevel = false) (fun A => ?_) (onward_remaining (limit + 1))
      (fun L => ?_) nil_notMem_namespaceMember
    · cases topLevel with
      | true => exact Parses.pure fun _ _ hw => ⟨hw, fun h => nomatch h⟩
      | false => exact Parses.gets.mono (fun _ => le_rfl) fun _ _ _ hw => ⟨hw.1, fun _ => rfl⟩
    · exact namespaceMember_parses fun L => (ih false).mono (fun _ => le_rfl) fun _ _ _ hw => hw.1

theorem declarationUnit_parses : Parses (fun _ => 1) Parser.declarationUnit fun u c =>
    {w | w ∈ Grammar.declarationUnit u ∧ (c.atEnd = true ∨ c.issues.isFull = true)} := by
  refine Parses.look fun start => usingDirectives_reads.bind fun us => Parses.gets.bind fun limit => ?_
  refine Parses.bind ((namespaceMembers_parses limit true).mono
    (fun _ _ hw => ⟨hw.1, Nat.le_of_eq hw.2⟩) fun _ _ => le_rfl) fun ms => ?_
  refine Parses.span fun span => Parses.pure fun c w hw => ⟨?_, ?_⟩
  · rw [one_mul] at hw
    exact hw.1
  · exact hw.2.resolve_left nofun

end Parser

end Chunkwise
