import Chunkwise.Parser.Decl
import Chunkwise.Proofs.Extent.Stmt

/-!
The region of a member or of a type begins at its attributes, which are read before anything tells what
is being declared. The parsers of what comes after them are given the position where the region begins,
and the attributes, which make the start of the row.
-/
namespace Chunkwise.Parser

open Script

variable {T : Script} {h i j k : Nat}

theorem usingAlias_goes : Goes T True i usingAlias fun id? j =>
    T.Row i j (id?.toList.map Ident.spanTree) := by
  apply Goes.look
  intro named
  split
  · apply (identifier_builds i).bind
    intro aliasName j _ halias
    apply Goes.advanceAny
    exact fun k hjk => Goes.pure fun _ => halias.row.wait hjk
  · exact Goes.pure fun _ => Row.nil (Nat.le_refl i)

/-- A using directive passes its word, also if it is given up. -/
theorem usingDirective_lands (hk : T.kindAt i = .keyword .usingKw) {c : Cursor} (hc : c.At T i) :
    Lands T True (i + 1) (fun u j => T.Stands i j u.spanTree) (usingDirective c) := by
  have hrest : Goes T True (i + 1) (do
      let aliasName ← usingAlias
      let target ← qualifiedName
      expectSymbol .semicolon
      return UsingDirective.mk aliasName target (← spanFrom (T.spanAt i)))
      fun u j => T.Stands i j u.spanTree := by
    apply usingAlias_goes.bind
    intro aliasName j hij halias
    apply (qualifiedName_builds j).bind
    intro target k hjk htarget
    apply Goes.expect (by simp)
    apply Goes.spanFrom
    have hrow : T.Row i (k + 1) (aliasName.toList.map Ident.spanTree ++ [target.spanTree]) :=
      ((halias.after (Nat.le_succ i)).append htarget.row).wait (Nat.le_succ k)
    exact Goes.pure fun hlen => hrow.enclosed (by omega) hlen
  have hword : expectKeyword .usingKw c = (some (), c.advance) := by
    have hhere : (c.current.kind == .keyword .usingKw) = true := by rw [hc.kind, hk, beq_self_eq_true]
    have hcheck : check (.keyword .usingKw) c = (some true, c) := by rw [check, Attempt.gets, hhere]
    exact Attempt.bind_eq_of_run hcheck
  rw [usingDirective, Attempt.bind_eq_of_run (currentSpan_run c), hc.span, Attempt.bind_eq_of_run hword]
  exact hrest c.advance (hc.advance (by simp [hk]))

theorem usingRound_appends : Appends T False usingRound UsingDirective.spanTree := by
  intro i us j
  apply Goes.check
  by_cases hk : T.kindAt j = .keyword .usingKw
  · rw [hk]
    apply Goes.look
    intro full
    split
    · exact Goes.pure fun _ => id
    apply Goes.optional_lands (Nat.le_succ j) fun c hc => usingDirective_lands hk hc
    · exact fun u k hjk hu => Goes.pure fun _ => ⟨hjk, fun hus => hus.push hu⟩
    · intro k hjk
      apply Goes.synchronize
      exact fun m hkm => Goes.pure fun _ => ⟨by omega, fun hus => hus.wait (by omega)⟩
  · have hother : (!(T.kindAt j == .keyword .usingKw)) = true := by simp [hk]
    rw [if_pos hother]
    exact Goes.pure fun _ => id

theorem attributeRound_appends : Appends T True attributeRound QualifiedName.spanTree := by
  intro i qs j
  apply (qualifiedName_builds j).bind
  intro q k _ hq
  have hlt := hq.lt
  have hrest : ∀ m, k ≤ m → Goes T True m (do
      if ← eatSymbol .comma then return .inl (qs ++ [q])
      else return .inr (qs ++ [q]) : Parser (List QualifiedName ⊕ List QualifiedName))
      (afterRound
        (fun qs' m => T.Row i j (qs.map QualifiedName.spanTree) → T.Row i m (qs'.map QualifiedName.spanTree))
        (fun qs' m => T.Row i j (qs.map QualifiedName.spanTree) → T.Row i m (qs'.map QualifiedName.spanTree))
        j) := by
    intro m hkm
    apply Goes.eatThen (by simp)
    · exact fun _ => Goes.pure fun _ => ⟨by omega, fun hqs => (hqs.push hq).wait (by omega)⟩
    · exact Goes.pure fun _ hqs => (hqs.push hq).wait hkm
  apply Goes.checkThen
  · intro _
    apply (arguments_lists expression_builds k).bind
    exact fun args m hkm _ => hrest m hkm
  · exact fun _ => hrest k (Nat.le_refl k)

theorem attributeGroup_goes (h : Nat) (found : List QualifiedName) :
    Goes T True i (attributeGroup found) fun qs j =>
      T.Row h i (found.map QualifiedName.spanTree) → T.Row h j (qs.map QualifiedName.spanTree) := by
  apply (((attributeRound_appends h).given _).repeatFrom fun _ => id).bind
  intro qs j _ hqs
  apply Goes.expect (by simp)
  exact Goes.pure fun _ hfound => (hqs hfound).wait (Nat.le_succ j)

theorem groupRound_appends : Appends T True groupRound QualifiedName.spanTree := by
  intro i qs j
  apply Goes.eatThen (by simp)
  · intro _
    apply (attributeGroup_goes i qs).bind
    exact fun qs' k hk hqs' => Goes.pure fun _ => ⟨hk, fun hqs => hqs' (hqs.wait (Nat.le_succ j))⟩
  · exact Goes.pure fun _ => id

theorem attributes_goes : Goes T True i attributes fun qs j =>
    T.Row i j (qs.map QualifiedName.spanTree) := groupRound_appends.repeatFrom

theorem modifier?_ne_end {l : TokenKind} {m : Modifier} (h : modifier? l = some m) :
    l ≠ .endOfInput := by
  rintro rfl
  cases h

theorem modifierRound_keeps : Keeps T True modifierRound (fun _ _ => True) fun _ _ => True := by
  intro ms j
  apply Goes.kind
  split
  next m hm => exact Goes.advance (modifier?_ne_end hm) (Goes.pure fun _ => ⟨Nat.lt_succ_self j, id⟩)
  · exact Goes.pure fun _ => id

theorem modifiers_goes : Goes T True i modifiers fun _ _ => True :=
  modifierRound_keeps.repeatFrom fun _ => trivial

theorem baseName_builds (kind : TypeKind) : Builds T (baseName kind) QualifiedName.spanTree := by
  intro i
  apply Goes.kind
  apply Goes.span
  split
  next hbase =>
    have hgoes : T.kindAt i ≠ .endOfInput := by
      intro hend
      simp [hend] at hbase
    apply Goes.advance hgoes
    have htoken := stands_token hgoes
    exact Goes.pure fun hlen => htoken.row.stands htoken.lt (T.spans_token i) hlen
  · exact qualifiedName_builds i

theorem baseRound_appends (kind : TypeKind) : Appends T True (baseRound kind) QualifiedName.spanTree := by
  intro i qs j
  apply Goes.eatThen (by simp)
  · intro _
    apply (baseName_builds kind _).bind
    exact fun q k hk hq => Goes.pure fun _ => ⟨hk, fun hqs => (hqs.wait (Nat.le_succ j)).push hq⟩
  · exact Goes.pure fun _ => id

theorem bases_goes (kind : TypeKind) : Goes T True i (bases kind) fun qs j =>
    T.Row i j (qs.map QualifiedName.spanTree) := by
  apply Goes.eatThen (by simp)
  · intro _
    apply (baseName_builds kind _).bind
    intro first j _ hfirst
    exact (baseRound_appends kind i).repeatFrom fun _ => hfirst.row.after (Nat.le_succ i)
  · exact Goes.pure fun _ => Row.nil (Nat.le_refl i)

theorem typeKind?_ne_end {l : TokenKind} {kind : TypeKind} (h : typeKind? l = some kind) :
    l ≠ .endOfInput := by
  rintro rfl
  cases h

/-- The head goes on with a row of attributes, wherever the row begins. -/
theorem typeHead_goes (attrs : List QualifiedName) (mods : List Modifier) :
    Goes T True i (typeHead attrs mods) fun head j => i < j ∧
      ∀ h, T.Row h i (attrs.map QualifiedName.spanTree) → T.Row h j head.spanTrees := by
  apply Goes.kind
  split
  next kind hkind =>
    apply Goes.advance (typeKind?_ne_end hkind)
    apply (identifier_builds _).bind
    intro name j hij hname
    apply (bases_goes kind).bind
    intro qs k hjk hqs
    have hrest : T.Row i k (name.spanTree :: qs.map QualifiedName.spanTree) :=
      (hname.row.after (Nat.le_succ i)).append hqs
    exact Goes.pure fun _ => ⟨by omega, fun h hattrs => hattrs.append hrest⟩
  · exact Goes.expected _

theorem paramRound_appends : Appends T True paramRound Param.spanTree := by
  intro i ps j
  apply (typeRef_builds j).bind
  intro type k hjk htype
  apply (identifier_builds k).bind
  intro name m hkm hname
  have hfirst := htype.lt
  have hsecond := hname.lt
  have hmore : m + 1 ≤ T.body.length → T.Row i j (ps.map Param.spanTree) → T.Row i (m + 1)
      ((ps ++ [Param.mk type name (type.span.merge name.span)]).map Param.spanTree) := by
    intro hlen hps
    have hnode := htype.join (Row.nil (Nat.le_refl k)) hname (by omega)
    rw [TypeRef.span_spanTree] at hnode
    exact (hps.push hnode).wait (Nat.le_succ m)
  apply Goes.eatThen (by simp)
  · exact fun _ => Goes.pure fun hlen => ⟨by omega, hmore hlen⟩
  apply Goes.expect (by simp)
  exact Goes.pure hmore

theorem params_lists : Lists T params (·.map Param.spanTree) := by
  intro i
  apply Goes.expect (by simp)
  apply Goes.eatThen (by simp)
  · exact fun _ => Goes.pure fun _ => ⟨by omega, Row.nil (by omega)⟩
  apply paramRound_appends.repeatFrom.mono
  exact fun ps j hij hps => ⟨hij, hps.after (Nat.le_succ i)⟩

theorem enumMemberRound_appends : Appends T True enumMemberRound MemberDecl.spanTree := by
  intro i ms j
  apply Goes.checkThen
  · exact fun _ => Goes.pure fun _ => id
  intro _
  apply (identifier_builds j).bind
  intro name k hjk hname
  apply initializer_goes.bind
  intro value m hkm hvalue
  apply Goes.spanFrom
  have hlt := hname.lt
  have hmore : m ≤ T.body.length → T.Row i j (ms.map MemberDecl.spanTree) → T.Row i m
      ((ms ++ [MemberDecl.enumMember ⟨name, value, name.span.merge (T.spanAt (m - 1))⟩]).map
        MemberDecl.spanTree) := fun hlen hms => hms.push (named_stands hname hvalue hlen)
  apply Goes.eatThen (by simp)
  · intro _
    exact Goes.pure fun hlen => ⟨by omega, fun hms => (hmore (by omega) hms).wait (Nat.le_succ m)⟩
  · exact Goes.pure hmore

theorem constructorDecl_goes (hhi : h ≤ i) (mods : List Modifier) :
    Goes T True i (constructorDecl (T.spanAt h) mods) fun m j => T.Stands h j m.spanTree := by
  apply (identifier_builds i).bind
  intro name a hia hname
  apply (params_lists a).bind
  intro ps b hab ⟨hlt, hps⟩
  apply (body_builds b).bind
  intro body j hbj hbody
  apply Goes.spanFrom
  have hrow : T.Row h j (name.spanTree :: (ps.map Param.spanTree ++ [body.spanTree])) :=
    (hname.row.after hhi).append (hps.append hbody.row)
  exact Goes.pure fun hlen => hrow.enclosed (by omega) hlen

theorem methodBody_goes : Goes T True i methodBody fun b? j =>
    T.Row i j (b?.toList.map Block.spanTree) := by
  apply Goes.eatThen (by simp)
  · exact fun _ => Goes.pure fun _ => Row.nil (Nat.le_succ i)
  · apply (body_builds i).bind
    exact fun b j _ hb => Goes.pure fun _ => hb.row

variable {type : TypeRef}

theorem methodDecl_goes (htype : T.Stands h i type.spanTree) (hgi : k ≤ h) (mods : List Modifier) :
    Goes T True i (methodDecl (T.spanAt k) mods type) fun m j => T.Stands k j m.spanTree := by
  have hhi := htype.lt
  apply (identifier_builds i).bind
  intro name a hia hname
  apply (params_lists a).bind
  intro ps b hab ⟨hlt, hps⟩
  apply methodBody_goes.bind
  intro body j hbj hbody
  apply Goes.spanFrom
  have hrow : T.Row k j (type.spanTree :: name.spanTree ::
      (ps.map Param.spanTree ++ body.toList.map Block.spanTree)) :=
    (htype.row.after hgi).append (hname.row.append (hps.append hbody))
  exact Goes.pure fun hlen => hrow.enclosed (by omega) hlen

theorem fieldDecl_goes (htype : T.Stands h i type.spanTree) (hgi : k ≤ h) (mods : List Modifier) :
    Goes T True i (fieldDecl (T.spanAt k) mods type) fun m j => T.Stands k j m.spanTree := by
  have hhi := htype.lt
  apply (declarators_lists i).bind
  intro names j hij ⟨hlt, hnames⟩
  apply Goes.expect (by simp)
  apply Goes.spanFrom
  have hrow : T.Row k (j + 1) (type.spanTree :: names.map Declarator.spanTree) :=
    ((htype.row.after hgi).append hnames).wait (Nat.le_succ j)
  exact Goes.pure fun hlen => hrow.enclosed (by omega) hlen

/-- Given the position where a type begins and its attributes, the parser of what is left of it yields a
declaration for the tokens from there on. -/
def BuildsType (T : Script) (nested : TypeParser) : Prop :=
  ∀ {h i : Nat} {attrs : List QualifiedName} (mods : List Modifier), h ≤ i →
    T.Row h i (attrs.map QualifiedName.spanTree) →
    Goes T True i (nested (T.spanAt h) attrs mods) fun d j => T.Stands h j d.spanTree

variable {nested : TypeParser}

theorem member_builds (hn : BuildsType T nested) (owner : String) :
    Builds T (member nested owner) MemberDecl.spanTree := by
  intro i
  apply Goes.span
  apply attributes_goes.bind
  intro attrs a hia hattrs
  apply modifiers_goes.bind
  intro mods b hab _
  have hrow : T.Row i b (attrs.map QualifiedName.spanTree) := hattrs.wait hab
  have hib : i ≤ b := Nat.le_trans hia hab
  have hplain : Goes T True b (do
      let type ← typeRef
      if ← looksLikeMethod then methodDecl (T.spanAt i) mods type
      else fieldDecl (T.spanAt i) mods type) fun m j => T.Stands i j m.spanTree := by
    apply (typeRef_builds b).bind
    intro type c _ htype
    apply Goes.look
    intro isMethod
    split
    · exact methodDecl_goes htype hib mods
    · exact fieldDecl_goes htype hib mods
  apply Goes.kind
  split
  · apply (hn mods hib hrow).bind
    intro d j _ hd
    apply Goes.pure
    intro _
    rw [MemberDecl.spanTree, MemberDecl.spanTrees_eq]
    exact hd
  · apply Goes.look
    intro isMethod
    split
    · exact constructorDecl_goes hib mods
    · exact hplain

theorem memberRound_appends (hn : BuildsType T nested) (owner : String) :
    Appends T True (memberRound nested owner) MemberDecl.spanTree := by
  intro i ms j
  apply Goes.checkThen
  · exact fun _ => Goes.pure fun _ => id
  intro _
  apply Goes.atEndThen
  · exact fun _ => Goes.pure fun _ => id
  intro hgoes
  apply Goes.look
  intro full
  split
  · exact Goes.pure fun _ => id
  apply Goes.span
  apply (member_builds hn owner j).optional
  · exact fun m k _ hm => Goes.pure fun _ => ⟨hm.lt, fun hms => hms.push hm⟩
  · intro k hjk
    apply Goes.atEndThen
    · exact fun _ => Goes.fail
    · intro _
      apply ((resume_goes hgoes hjk ms).permit (False.elim ·)).mono
      rintro r m - ⟨rfl, hjm⟩
      exact ⟨hjm, fun hms => hms.wait (Nat.le_of_lt hjm)⟩

theorem typeAfterModifiers_builds (limit : Nat) : BuildsType T (typeAfterModifiers limit) := by
  induction limit with
  | zero => exact fun _ _ _ => Goes.fail
  | succ limit ih =>
    intro h i attrs mods hhi hattrs
    apply (typeHead_goes attrs mods).bind
    intro head a hia ⟨hlt, hheads⟩
    have hhead := hheads h hattrs
    apply Goes.expect (by simp)
    have hrest : ∀ (ms : List MemberDecl) j, a < j → T.Row (a + 1) j (ms.map MemberDecl.spanTree) →
        Goes T True j (do
          expectSymbol .closeBrace
          let _ ← eatSymbol .semicolon
          return TypeDecl.mk head ms (← spanFrom (T.spanAt h))) fun d k => T.Stands h k d.spanTree := by
      intro ms j haj hms
      apply Goes.expect (by simp)
      apply Goes.eatAny (by simp)
      intro _ k hjk
      apply Goes.spanFrom
      have hrow : T.Row h k (head.spanTrees ++ ms.map MemberDecl.spanTree) :=
        (hhead.append (hms.after (Nat.le_succ a))).wait (by omega)
      exact Goes.pure fun hlen => hrow.enclosed (by omega) hlen
    split
    · exact enumMemberRound_appends.repeatFrom.bind fun ms j haj hms => hrest ms j haj hms
    · exact (memberRound_appends ih head.name.name).repeatFrom.bind fun ms j haj hms => hrest ms j haj hms

theorem typeDecl_builds : Builds T typeDecl TypeDecl.spanTree := by
  intro i
  apply Goes.span
  apply attributes_goes.bind
  intro attrs a hia hattrs
  apply modifiers_goes.bind
  intro mods b hab _
  apply Goes.look
  intro limit
  exact typeAfterModifiers_builds limit mods (Nat.le_trans hia hab) (hattrs.wait hab)

variable {inner : Parser (List NamespaceMember)}

theorem namespaceMember_builds
    (hinner : ∀ i, Goes T True i inner fun ms j => T.Row i j (ms.map NamespaceMember.spanTree)) :
    Builds T (namespaceMember inner) NamespaceMember.spanTree := by
  intro i
  apply Goes.checkThen
  · intro _
    apply Goes.span
    apply Goes.expect (by simp)
    apply (qualifiedName_builds _).bind
    intro name a hia hname
    apply Goes.expect (by simp)
    apply (hinner _).bind
    intro ms j haj hms
    apply Goes.expect (by simp)
    apply Goes.spanFrom
    apply Goes.pure
    intro hlen
    have hrow : T.Row i (j + 1) (name.spanTree :: ms.map NamespaceMember.spanTree) :=
      ((hname.row.after (Nat.le_succ i)).append (hms.after (Nat.le_succ a))).wait (Nat.le_succ j)
    rw [NamespaceMember.spanTree, NamespaceMember.spanTrees_eq]
    exact hrow.enclosed (by omega) hlen
  · intro _
    apply (typeDecl_builds i).bind
    intro d j _ hd
    apply Goes.pure
    intro _
    rw [NamespaceMember.spanTree]
    exact hd

/-- What the loop over the members of a namespace stops at. -/
def memberStop (topLevel : Bool) : Parser Bool := if topLevel then pure false else checkSymbol .closeBrace

theorem memberStop_goes (topLevel : Bool) (i : Nat) :
    Goes T False i (memberStop topLevel) fun _ j => j = i := by
  cases topLevel with
  | true => exact Goes.pure fun _ => rfl
  | false => exact checkSymbol_goes .closeBrace

theorem namespaceMembers_goes (limit : Nat) : ∀ topLevel i,
    Goes T (limit = 0) i (namespaceMembers limit topLevel) fun ms j =>
      T.Row i j (ms.map NamespaceMember.spanTree) := by
  induction limit with
  | zero => exact fun _ _ => Goes.fail.permit fun _ => rfl
  | succ limit ih =>
    intro topLevel i
    have hinner := namespaceMember_builds fun i => (ih false i).permit fun _ => trivial
    exact (elementRound_appends (memberStop_goes topLevel) hinner).repeatFrom.permit (False.elim ·)

theorem declarationUnit_goes :
    Goes T False 0 declarationUnit fun u _ => T.Tidy → u.spanTree.Nested := by
  apply Goes.span
  apply usingRound_appends.repeatFrom.bind
  intro us i _ hus
  apply Goes.remaining
  intro c hc
  have hlimit : T.body.length + 1 - i ≠ 0 := by
    have hle := hc.le
    omega
  have hmembers : Goes T False i (namespaceMembers (T.body.length + 1 - i) true) fun ms j =>
      T.Row i j (ms.map NamespaceMember.spanTree) := (namespaceMembers_goes _ true i).permit hlimit
  apply hmembers.bind _ c hc
  intro ms j _ hms
  apply Goes.spanFrom
  exact Goes.pure fun hlen => (hus.append hms).whole hlen

end Chunkwise.Parser
