import Chunkwise.Parser.Decl
import Chunkwise.Proofs.Cut.Stmt

/-!
Every parser of declarations runs in step with itself up to a cut. Three times a name is told apart by
the token after it: the alias of a directive, a constructor and a method. Where that token lies beyond
the cut, the run over the shorter text takes the name for a target, a type or a field.
-/
namespace Chunkwise

/-- Only a name stands before the cut. -/
structure Cut.Named (K : Cut) (d : Cursor) : Prop where
  named : ∃ name, d.current.kind = .ident name
  later : d.later = [K.stop]
  quiet : d.issues = Log.empty

theorem Cut.Named.dotted {K : Cut} {d : Cursor} (h : K.Named d) : K.Dotted d :=
  ⟨h.named, ⟨[], h.later, .nil⟩, h.quiet⟩

namespace Parser

variable {α β : Type} {K : Cut} {e : Bool} {n : Nat} {A : List Token → Prop}
  {C : β → List Token → Prop}

/-- Whether a name and a token of kind `k` stand here. -/
def nameBefore (k : TokenKind) (c : Cursor) : Bool := c.current.kind.isIdent && c.ahead 1 == k

theorem nameBefore_spent (k : TokenKind) {d : Cursor} (hd : K.Spent d) : nameBefore k d = false := by
  simp [nameBefore, hd.kind, TokenKind.isIdent]

/-- Both runs see the same, and a name and such a token if so, or only a name stands before the cut. -/
theorem nameBefore_cut {k : TokenKind} (hk : k ≠ .endOfInput) {w : List Token} {c d : Cursor}
    (hat : K.At w c d) (hw : w ≠ []) :
    nameBefore k d = nameBefore k c ∧
        (nameBefore k c = true → ∃ t u rest, w = t :: u :: rest ∧ u.kind = k) ∨
      nameBefore k d = false ∧ K.Named d := by
  obtain ⟨t, w, rfl⟩ := List.exists_cons_of_ne_nil hw
  unfold nameBefore
  rw [hat.current, hat.current']
  cases w with
  | cons u rest =>
    have hahead : c.ahead 1 = u.kind := by simp [Cursor.ahead, hat.later]
    have hahead' : d.ahead 1 = u.kind := by simp [Cursor.ahead, hat.later']
    rw [hahead, hahead']
    refine .inl ⟨rfl, fun hfound => ⟨t, u, rest, rfl, ?_⟩⟩
    simp only [Bool.and_eq_true, beq_iff_eq] at hfound
    exact hfound.2
  | nil =>
    have hahead : d.ahead 1 = .endOfInput := by simp [Cursor.ahead, hat.later', K.stop_ends]
    have hfalse : (t.kind.isIdent && d.ahead 1 == k) = false := by
      rw [hahead]
      simpa using fun _ => hk.symm
    cases ht : t.kind with
    | ident name =>
      rw [ht] at hfalse
      exact .inr ⟨hfalse, ⟨name, by rw [hat.current', ht]⟩, hat.later', hat.quiet'⟩
    | _ => exact .inl ⟨rfl, fun hfound => absurd hfound Bool.false_ne_true⟩

theorem identifier_named {d : Cursor} (hd : K.Named d) :
    Finishes K true identifier (fun _ => True) d := by
  obtain ⟨name, hname⟩ := hd.named
  have hspent : K.Spent d.advance := by
    constructor
    · rw [Cursor.advance_tokens (by simp [hd.later]), hd.later]
    · rw [Cursor.advance_issues, hd.quiet]
  exact .inr ⟨rfl, _, _, identifier_run hname, hspent, trivial⟩

theorem nameBefore_tracks {k : TokenKind} (hk : k ≠ .endOfInput) {p p' q q' : Parser β}
    (hp : Tracks K (fun w => A w ∧ ∃ t u rest, w = t :: u :: rest ∧ u.kind = k) e p p' C)
    (hq : Tracks K A e q q' C) (hidle : A [] → Idles K e q' (C · []))
    (hnamed : ∀ w, A w → w ≠ [] → ∀ d, K.Named d → Finishes K e q' (C · []) d) :
    Tracks K A e (do if ← Attempt.gets (nameBefore k) then p else q)
      (do if ← Attempt.gets (nameBefore k) then p' else q') C := by
  apply Tracks.ahead_then hp hq
  intro w c d hat hw
  by_cases hnil : w = []
  · subst hnil
    exact .inr ⟨nameBefore_spent k hat.spent, hidle hw d hat.spent⟩
  · rcases nameBefore_cut hk hat hnil with ⟨hsame, hfound⟩ | ⟨hfalse, hd⟩
    · exact .inl ⟨hsame, fun h => ⟨hw, hfound h⟩⟩
    · exact .inr ⟨hfalse, hnamed w hw hnil d hd⟩

theorem nameBefore_rests {k : TokenKind} {p q : Parser β} {S : β → Prop} (hq : Idles K e q S) :
    Idles K e (do if ← Attempt.gets (nameBefore k) then p else q) S := by
  apply (Idles.gets (R := (· = false)) fun _ => nameBefore_spent k).bind
  intro _ found hfound
  rw [hfound]
  exact hq

theorem usingAlias_then (g : Option Ident → Parser β) :
    (usingAlias >>= g) = (do
      if ← Attempt.gets (nameBefore (.symbol .assign)) then
        let aliasName ← identifier
        advance
        g (some aliasName)
      else g none) := by
  funext c
  have hnamed : (c.current.kind.isIdent && c.ahead 1 == .symbol .assign) =
      nameBefore (.symbol .assign) c := rfl
  cases hfound : nameBefore (.symbol .assign) c with
  | false =>
    simp only [usingAlias, Attempt.gets, Bind.bind, Attempt.bind, hnamed, hfound, Bool.false_eq_true,
      if_false, Pure.pure, Attempt.pure]
  | true =>
    simp only [usingAlias, Attempt.gets, Bind.bind, Attempt.bind, hnamed, hfound, if_true, Pure.pure,
      Attempt.pure, advance, Attempt.modify]
    rcases identifier c with ⟨_ | x, c'⟩ <;> rfl

theorem usingDirective_strict : Strict K false usingDirective := by
  -- what stands after the word and the alias
  have hrest : ∀ start aliasName, Strict K false (do
      let target ← qualifiedName
      expectSymbol .semicolon
      return ⟨aliasName, target, ← spanFrom start⟩ : Parser UsingDirective) := by
    intro start aliasName
    apply qualifiedName_strict.bind
    · intro target
      apply (expect_strict (by simp)).loose.next
      exact fun _ _ => Tracks.span fun _ => Tracks.pure fun _ => id
    · exact fun _ target => (Idles.expect (by simp)).andThen
  intro n
  apply Tracks.here _ fun _ _ => (Idles.expect (by simp)).andThen
  intro start
  apply (expect_strict (by simp) n).next
  intro _
  rw [usingAlias_then]
  apply nameBefore_tracks (by simp)
  · apply Tracks.identifier.next
    intro x
    apply ((Tracks.advance (k := .symbol .assign) (A := below n) (by simp)).mono _ id
      fun _ _ => id).next
    · exact fun _ => ((hrest start (some x)).loose.below n).mono (fun _ => after_below) id fun _ _ => id
    · rintro w ⟨t, -, ⟨hlt, _, u, rest, heq, hu⟩, -⟩
      cases heq
      exact ⟨Nat.lt_of_succ_lt hlt, u, rfl, hu⟩
  · exact (hrest start none).loose.below n
  · exact fun _ => qualifiedName_stops.andThen
  · intro w _ _ d hd
    apply (qualifiedName_dotted hd.dotted).bind
    exact fun _ target _ => (Idles.expect (by simp)).andThen

theorem usingDirectives_rests : Idles K true usingDirectives fun _ => True := by
  apply Idles.repeatFrom
  intro us
  apply (Idles.check (by simp)).bind
  intro _ found hfound
  rw [hfound]
  exact Idles.pure rfl

theorem usingDirectives_loose : Loose K true usingDirectives := by
  apply Steps.repeatFrom
  · intro n us
    apply Tracks.see (D := fun _ => upTo n)
    · intro t w c d hat
      rw [hat.current, hat.current']
    · exact fun _ hw => hw
    · intro found
      cases found with
      | false => exact Tracks.pure fun _ => id
      | true =>
        apply Tracks.tooManyErrors_then
        · exact Tracks.pure fun _ => id
        apply (usingDirective_strict n).optional.next
        intro u?
        cases u? with
        | some u => exact Tracks.pure fun _ => id
        | none =>
          have hresume : Adds (do
              synchronize
              return .inl us : Parser (List UsingDirective ⊕ List UsingDirective)) :=
            Adds.synchronize.bind fun _ => Adds.pure _
          exact Tracks.recover hresume hresume
    · intro _ d hd
      have hfound : (d.current.kind == .keyword .usingKw) = false := by simp [hd.kind]
      rw [hfound]
      exact Idles.pure (Nat.zero_le n)
  · intro _ us
    apply (Idles.check (by simp)).bind
    intro _ found hfound
    rw [hfound]
    exact Idles.pure rfl

theorem attributeGroup_loose (found : List QualifiedName) : Loose K false (attributeGroup found) := by
  apply Loose.bind (e := true)
  · apply Steps.repeatFrom
    · intro n qs
      apply (qualifiedName_strict n).bind
      · intro q
        have hcomma : Tracks K (below n) true
            (do
              if ← eatSymbol .comma then return .inl (qs ++ [q])
              else return .inr (qs ++ [q]) : Parser (List QualifiedName ⊕ List QualifiedName))
            (do
              if ← eatSymbol .comma then return .inl (qs ++ [q])
              else return .inr (qs ++ [q])) (rounds n) := by
          apply Tracks.eat_then (by simp)
          · exact Tracks.pure fun _ => after_below
          · exact Tracks.pure fun _ => Nat.le_of_lt
          · exact fun _ => Idles.pure (Nat.zero_le n)
        apply Tracks.check_then (by simp)
        · apply Tracks.anywhere
          exact ((arguments_strict expression_operand.inside).loose.below n).next fun _ => hcomma
        · exact hcomma
        · exact fun _ => Idles.eat_then (by simp) (Idles.pure (Nat.zero_le n))
      · intro _ q _
        apply (Idles.check (by simp)).bind
        intro _ opened hopened
        rw [hopened]
        exact Idles.eat_then (by simp) (Idles.pure (Nat.zero_le n))
    · exact fun _ qs => qualifiedName_stops.andThen
  · exact fun found => (expect_strict (by simp)).loose.next fun _ => Loose.pure found
  · exact fun _ found => (Idles.expect (by simp)).andThen

theorem attributes_rests : Idles K true attributes fun _ => True :=
  Idles.repeatFrom (fun _ => Idles.eat_then (by simp) (Idles.pure rfl)) []

theorem attributes_loose : Loose K true attributes := by
  apply Steps.repeatFrom
  · intro n qs
    apply Tracks.eat_then (by simp)
    · exact (attributeGroup_loose qs).past.next fun found => Tracks.pure fun _ => id
    · exact Tracks.pure fun _ => id
    · exact fun _ => Idles.pure (Nat.zero_le n)
  · exact fun _ qs => Idles.eat_then (by simp) (Idles.pure rfl)

theorem modifiers_rests : Idles K true modifiers fun _ => True := by
  apply Idles.repeatFrom
  exact fun ms => Idles.peek (Idles.pure rfl)

theorem modifiers_loose : Loose K true modifiers := by
  apply Steps.repeatFrom
  · intro n ms
    apply Tracks.peek
    · intro k
      cases hm : modifier? k with
      | none => exact Tracks.anywhere (Tracks.pure fun _ => id)
      | some m =>
        have hk : k ≠ .endOfInput := by
          rintro rfl
          cases hm
        exact (Tracks.advance hk).next fun _ => Tracks.pure fun _ => after_upTo
    · exact fun _ => Idles.pure (Nat.zero_le n)
  · exact fun _ ms => Idles.peek (Idles.pure rfl)

theorem baseName_strict (kind : TypeKind) : Strict K true (baseName kind) := by
  intro n
  apply Tracks.peek
  · intro k
    apply Tracks.here
    · intro span
      split
      · next hbuiltin =>
        have hk : k ≠ .endOfInput := by
          rintro rfl
          simp at hbuiltin
        exact (Tracks.advance hk).next fun _ => Tracks.pure fun _ => after_upTo
      · exact Tracks.anywhere (qualifiedName_strict n)
    · exact fun hnil => absurd hnil (not_starts_nil _ _)
  · intro _
    apply Idles.look
    intro span
    cases kind <;> exact qualifiedName_stops.stops

theorem bases_loose (kind : TypeKind) : Loose K true (bases kind) := by
  intro n
  apply Tracks.eat_then (by simp)
  · apply (baseName_strict kind).loose.past.bind
    · intro first
      have hmore : Loose K true (repeatFrom (baseRound kind) [first]) := by
        apply Steps.repeatFrom
        · intro n qs
          apply Tracks.eat_then (by simp)
          · apply (baseName_strict kind).loose.past.bind
            · exact fun q => Tracks.pure fun _ => id
            · exact fun _ q hn => Idles.pure hn
          · exact Tracks.pure fun _ => id
          · exact fun _ => Idles.pure (Nat.zero_le n)
        · exact fun _ qs => Idles.eat_then (by simp) (Idles.pure rfl)
      exact (hmore.below n).mono (fun _ => id) id fun _ _ => Nat.le_of_lt
    · intro _ first _
      apply (Idles.repeatFrom _ [first]).mono id fun _ _ => Nat.zero_le n
      exact fun qs => Idles.eat_then (by simp) (Idles.pure rfl)
  · exact Tracks.pure fun _ => id
  · exact fun _ => Idles.pure (Nat.zero_le n)

theorem typeHead_stops (attrs : List QualifiedName) (mods : List Modifier) :
    Idles K e (typeHead attrs mods) fun _ => True := Idles.peek (Idles.expected _)

theorem typeHead_strict (attrs : List QualifiedName) (mods : List Modifier) :
    Strict K true (typeHead attrs mods) := by
  intro n
  apply Tracks.peek _ fun _ => Idles.expected _
  intro k
  cases hkind : typeKind? k with
  | none => exact Tracks.expected _
  | some kind =>
    have hk : k ≠ .endOfInput := by
      rintro rfl
      cases hkind
    apply (Tracks.advance hk).next
    intro _
    apply identifier_strict.loose.past.next
    intro name
    apply ((bases_loose kind).below n).bind
    · exact fun bases => Tracks.pure fun _ => id
    · exact fun _ bases hn => Idles.pure hn

theorem params_strict : Strict K false params := by
  apply parenthesised_strict
  · intro n ps
    apply (typeRef_strict n).bind
    · intro type
      exact (identifier_strict.loose.below n).next fun name => item_tracks _
    · exact fun _ type _ => Idles.identifier.andThen
  · exact fun _ ps => typeRef_stops.andThen

theorem enumMembers_loose : Loose K true enumMembers := by
  apply Steps.repeatFrom
  · intro n ms
    apply Tracks.check_then (by simp)
    · exact Tracks.anywhere (Tracks.pure fun _ => id)
    · apply (identifier_strict n).next
      intro name
      apply (initializer_loose.below n).bind
      · intro value
        apply Tracks.span
        intro span
        apply Tracks.eat_then (by simp)
        · exact Tracks.pure fun _ => after_below
        · exact Tracks.pure fun _ => Nat.le_of_lt
        · exact fun _ => Idles.pure (Nat.zero_le n)
      · intro _ value _
        apply Idles.span
        exact fun span => Idles.eat_then (by simp) (Idles.pure (Nat.zero_le n))
    · exact fun _ => Idles.identifier.andThen
  · intro _ ms
    apply (Idles.check (by simp)).bind
    intro _ found hfound
    rw [hfound]
    exact Idles.identifier.andThen

theorem constructorDecl_strict (start : Span) (mods : List Modifier) :
    Strict K false (constructorDecl start mods) := by
  apply identifier_strict.next
  intro name
  apply params_strict.loose.next
  intro ps
  apply body_strict.loose.next
  exact fun b _ => Tracks.span fun _ => Tracks.pure fun _ => id

theorem body_stops : Idles K e body fun _ => True :=
  Idles.look fun _ => (Idles.expect (by simp)).andThen

theorem methodBody_loose : Loose K false methodBody := by
  intro n
  apply Tracks.eat_then (by simp)
  · exact Tracks.pure fun _ hw => Nat.le_of_lt (after_upTo hw)
  · exact (body_strict.loose n).next fun b => Tracks.pure fun _ => id
  · exact fun _ => body_stops.andThen

theorem methodDecl_strict (start : Span) (mods : List Modifier) (returns : TypeRef) :
    Strict K false (methodDecl start mods returns) := by
  apply identifier_strict.next
  intro name
  apply params_strict.loose.next
  intro ps
  apply methodBody_loose.next
  exact fun b _ => Tracks.span fun _ => Tracks.pure fun _ => id

theorem fieldDecl_loose (start : Span) (mods : List Modifier) (type : TypeRef) :
    Loose K false (fieldDecl start mods type) := by
  apply declarators_loose.bind
  · intro names
    apply (expect_strict (by simp)).loose.next
    exact fun _ _ => Tracks.span fun _ => Tracks.pure fun _ => id
  · exact fun _ names => (Idles.expect (by simp)).andThen

theorem fieldDecl_stops (start : Span) (mods : List Modifier) (type : TypeRef) :
    Idles K e (fieldDecl start mods type) fun _ => True := declarators_stops.andThen

theorem Finishes.repeatFrom {step : β → Parser (β ⊕ α)} {b : β} {d : Cursor}
    (h : Finishes K true (step b) (·.isRight = true) d) :
    Finishes K true (Parser.repeatFrom step b) (fun _ => True) d := by
  change Finishes K true (Attempt.loop step (d.later.length + 1) b) (fun _ => True) d
  apply h.bind
  intro _ r hr
  cases r with
  | inl b' => cases hr
  | inr a => exact Idles.pure trivial

theorem declarators_named {d : Cursor} (hd : K.Named d) :
    Finishes K true declarators (fun _ => True) d := by
  apply Finishes.repeatFrom
  apply (identifier_named hd).bind
  intro _ name _
  apply initializer_rests.bind
  intro _ init _
  apply Idles.span
  exact fun span => Idles.eat_then (by simp) (Idles.pure rfl)

/-- A member that starts with a type: a method or a field. -/
theorem typedMember_stops (start : Span) (mods : List Modifier) : Idles K e (do
    let type ← typeRef
    if ← looksLikeMethod then methodDecl start mods type
    else fieldDecl start mods type) fun _ => True := typeRef_stops.andThen

theorem typedMember_strict (start : Span) (mods : List Modifier) : Strict K false (do
    let type ← typeRef
    if ← looksLikeMethod then methodDecl start mods type
    else fieldDecl start mods type) := by
  apply typeRef_strict.bind
  · intro type n
    apply nameBefore_tracks (by simp)
    · exact ((methodDecl_strict start mods type).loose n).mono (fun _ hw => hw.1) id fun _ _ => id
    · exact fieldDecl_loose start mods type n
    · exact fun _ => (fieldDecl_stops start mods type).stops
    · intro w _ _ d hd
      apply (declarators_named hd).bind
      exact fun _ names _ => (Idles.expect (by simp)).andThen
  · exact fun _ type => nameBefore_rests (fieldDecl_stops start mods type)

theorem typedMember_named (start : Span) (mods : List Modifier) {R : MemberDecl → Prop} {d : Cursor}
    (hd : K.Named d) : Finishes K e (do
      let type ← typeRef
      if ← looksLikeMethod then methodDecl start mods type
      else fieldDecl start mods type) R d := by
  apply (typeRef_dotted hd.dotted).bind
  exact fun _ type _ => (nameBefore_rests (fieldDecl_stops start mods type)).stops

variable {nested nested' : TypeParser}

/-- A member that does not start with the word of a type. -/
def plainMember (owner : String) (k : TokenKind) (start : Span) (mods : List Modifier) :
    Parser MemberDecl := do
  if k == .ident owner && (← looksLikeMethod) then constructorDecl start mods
  else
    let type ← typeRef
    if ← looksLikeMethod then methodDecl start mods type
    else fieldDecl start mods type

theorem plainMember_stops (owner : String) (k : TokenKind) (start : Span) (mods : List Modifier) :
    Idles K e (plainMember owner k start mods) fun _ => True := by
  apply (Idles.gets (R := (· = false)) fun _ => nameBefore_spent (.symbol .openParen)).bind
  intro _ found hfound
  rw [hfound, Bool.and_false]
  exact typedMember_stops start mods

theorem plainMember_strict (owner : String) (k : TokenKind) (start : Span) (mods : List Modifier) :
    Strict K false (plainMember owner k start mods) := by
  intro n
  cases hk : k == .ident owner with
  | true =>
    have hnamed : plainMember owner k start mods = (do
        if ← Attempt.gets (nameBefore (.symbol .openParen)) then constructorDecl start mods
        else
          let type ← typeRef
          if ← looksLikeMethod then methodDecl start mods type
          else fieldDecl start mods type) := by
      simp only [plainMember, hk, Bool.true_and]
      rfl
    rw [hnamed]
    apply nameBefore_tracks (by simp)
    · exact (constructorDecl_strict start mods n).mono (fun _ hw => hw.1) id fun _ _ => id
    · exact typedMember_strict start mods n
    · exact fun _ => (typedMember_stops start mods).stops
    · exact fun w _ _ d hd => typedMember_named start mods hd
  | false =>
    have htyped : plainMember owner k start mods = (do
        let type ← typeRef
        if ← looksLikeMethod then methodDecl start mods type
        else fieldDecl start mods type) := by
      simp only [plainMember, hk, Bool.false_and]
      rfl
    rw [htyped]
    exact typedMember_strict start mods n

variable {nested nested' : TypeParser}

theorem member_tracks (owner : String) (h : ∀ start attrs mods,
      Tracks K (upTo n) true (nested start attrs mods) (nested' start attrs mods) fun _ => below n) :
    Tracks K (upTo n) true (member nested owner) (member nested' owner) fun _ => below n := by
  apply Tracks.here
  · intro start
    apply (attributes_loose n).bind
    · intro attrs
      apply (modifiers_loose n).bind
      · intro mods
        apply Tracks.peek
        · intro k
          split
          · apply Tracks.anywhere
            apply (h start attrs mods).bind
            · exact fun decl => Tracks.pure fun _ => id
            · exact fun _ decl hn => Idles.pure hn
          · exact Tracks.anywhere
              ((plainMember_strict owner k start mods n).mono (fun _ => id) nofun fun _ _ => id)
        · exact fun _ => (plainMember_stops owner .endOfInput start mods).stops
      · exact fun _ mods _ => Idles.peek (plainMember_stops owner .endOfInput start mods).stops
    · intro _ attrs _
      apply modifiers_rests.bind
      exact fun _ mods _ => Idles.peek (plainMember_stops owner .endOfInput start mods).stops
  · intro _ start
    apply attributes_rests.bind
    intro _ attrs _
    apply modifiers_rests.bind
    exact fun _ mods _ => Idles.peek (plainMember_stops owner .endOfInput start mods).stops

/-- Once a member has been given up, the type is given up or the parse resumes further on. -/
theorem abandon_adds (before : Span) (ms : List MemberDecl) : Adds (do
    if ← atEnd then Attempt.fail
    else
      synchronize
      let moved := (← currentSpan) != before
      if !moved && !(← atEnd) then advance
      return .inl ms : Parser (List MemberDecl ⊕ List MemberDecl)) := by
  apply (Adds.gets _).bind
  intro ended
  cases ended with
  | true => exact Adds.fail
  | false => exact resume_adds before ms

theorem memberList_tracks (owner : String) (h : ∀ m ≤ n, ∀ start attrs mods,
      Tracks K (upTo m) true (nested start attrs mods) (nested' start attrs mods) fun _ => below m) :
    Tracks K (upTo n) true (memberList nested owner) (memberList nested' owner) fun _ => upTo n := by
  apply Tracks.repeatFrom
  · intro m hm ms
    apply Tracks.check_then (by simp)
    · exact Tracks.anywhere (Tracks.pure fun _ => id)
    · apply Tracks.atEnd_then
      · exact Tracks.pure fun _ => id
      · apply Tracks.tooManyErrors_then
        · exact Tracks.pure fun _ hw => hw.1
        apply Tracks.here _ fun hnil => absurd rfl hnil.2
        intro before
        have hmember := member_tracks owner (h m hm)
        apply (hmember.mono (fun _ hw => hw.1) id fun _ _ => id).optional.bind
        · intro a?
          cases a? with
          | some a => exact Tracks.pure fun _ => id
          | none => exact Tracks.recover (abandon_adds before ms) (abandon_adds before ms)
        · intro _ a? ha
          cases a? with
          | some a => exact Idles.pure ha
          | none => exact ha.elim
      · exact fun _ => Idles.pure (Nat.zero_le m)
    · exact fun _ => Idles.atEnd_then (Idles.pure (Nat.zero_le m))
  · intro _ ms
    apply (Idles.check (by simp)).bind
    intro _ closed hclosed
    rw [hclosed]
    exact Idles.atEnd_then (Idles.pure rfl)

theorem typeEnd_loose (start : Span) (head : TypeHead) (members : List MemberDecl) : Loose K true (do
    expectSymbol .closeBrace
    let _ ← eatSymbol .semicolon
    return ⟨head, members, ← spanFrom start⟩ : Parser TypeDecl) := by
  apply (expect_strict (by simp)).loose.next
  intro _
  apply (eat_loose (by simp)).bind
  · exact fun _ _ => Tracks.span fun _ => Tracks.pure fun _ => id
  · exact fun _ _ => Idles.span fun _ => Idles.pure trivial

theorem member_adds (K : Cut) (owner : String)
    (h : ∀ start attrs mods, Adds (nested start attrs mods)) :
    Adds (member nested owner) := by
  apply (Adds.gets _).bind
  intro start
  apply (attributes_loose (K := K) 0).adds.bind
  intro attrs
  apply (modifiers_loose (K := K) 0).adds.bind
  intro mods
  apply (Adds.gets _).bind
  intro k
  split
  · exact (h start attrs mods).bind fun decl => Adds.pure _
  · exact (plainMember_strict (K := K) owner k start mods 0).adds

theorem memberList_adds (K : Cut) (owner : String)
    (h : ∀ start attrs mods, Adds (nested start attrs mods)) :
    Adds (memberList nested owner) := by
  intro c
  apply Adds.loop
  intro ms
  apply (Adds.gets _).bind
  intro closed
  split
  · exact Adds.pure _
  apply (Adds.gets _).bind
  intro ended
  split
  · exact Adds.pure _
  apply (Adds.gets _).bind
  intro full
  split
  · exact Adds.pure _
  apply (Adds.gets _).bind
  intro before
  apply (member_adds K owner h).optional.bind
  intro a?
  cases a? with
  | some a => exact Adds.pure _
  | none => exact abandon_adds before ms

theorem typeAfterModifiers_adds (K : Cut) (limit : Nat) (start : Span)
    (attrs : List QualifiedName) (mods : List Modifier) :
    Adds (typeAfterModifiers limit start attrs mods) := by
  induction limit generalizing start attrs mods with
  | zero => exact Adds.fail
  | succ limit ih =>
    apply (typeHead_strict (K := K) attrs mods 0).adds.bind
    intro head
    apply (expect_strict (K := K) (e := true) (by simp) 0).adds.bind
    intro _
    dsimp only
    split
    · exact (enumMembers_loose (K := K) 0).adds.bind fun members =>
        (typeEnd_loose (K := K) start head members 0).adds
    · exact (memberList_adds K _ ih).bind fun members =>
        (typeEnd_loose (K := K) start head members 0).adds

/-- Types nest no deeper than there are tokens, so no limit that leaves room for all of them matters. -/
theorem typeAfterModifiers_tracks (limit limit' : Nat) (start : Span) (attrs : List QualifiedName)
    (mods : List Modifier) (hlimit : n + K.lost.length ≤ limit) (hlimit' : n < limit') :
    Tracks K (upTo n) true (typeAfterModifiers limit start attrs mods)
      (typeAfterModifiers limit' start attrs mods) fun _ => below n := by
  induction limit generalizing limit' n start attrs mods with
  | zero =>
    refine ⟨typeAfterModifiers_adds K 0 _ _ _, typeAfterModifiers_adds K _ _ _ _, ?_⟩
    intro w c d hat hw
    have hpos := hat.left_pos
    have hle : w.length ≤ n := hw
    omega
  | succ limit ih =>
    obtain ⟨limit', rfl⟩ := Nat.exists_eq_succ_of_ne_zero (Nat.ne_of_gt (Nat.zero_lt_of_lt hlimit'))
    apply (typeHead_strict attrs mods n).bind
    · intro head
      apply ((expect_strict (by simp)).loose.below n).next
      intro _
      dsimp only
      split
      · apply (enumMembers_loose.below n).bind
        · exact fun members => (typeEnd_loose start head members).below n
        · exact fun _ members _ => (Idles.expect (by simp)).andThen
      · apply (Tracks.fewer _ _ fun m hm => memberList_tracks _ fun j hj start attrs mods =>
          ih limit' start attrs mods (n := j) (by omega) (by omega)).bind
        · exact fun members => (typeEnd_loose start head members).below n
        · exact fun _ members _ => (Idles.expect (by simp)).andThen
        · exact memberList_adds K _ (typeAfterModifiers_adds K limit)
        · exact memberList_adds K _ (typeAfterModifiers_adds K limit')
    · exact fun _ head _ => (Idles.expect (by simp)).andThen

/-- The tokens that are left give the limit, and at the cut there is one. -/
theorem limitedType_stops (start : Span) (attrs : List QualifiedName) (mods : List Modifier) :
    Idles K e (do
      let limit ← Attempt.gets Cursor.remaining
      typeAfterModifiers limit start attrs mods) fun _ => True := by
  apply (Idles.gets (R := (· = 1)) fun _ hd => hd.remaining).bind
  intro _ limit hlimit
  rw [hlimit]
  exact (typeHead_stops attrs mods).andThen

theorem limitedType_strict (start : Span) (attrs : List QualifiedName) (mods : List Modifier) :
    Strict K true (do
      let limit ← Attempt.gets Cursor.remaining
      typeAfterModifiers limit start attrs mods) := by
  intro n
  have hadds : ∀ limit, Adds (typeAfterModifiers limit start attrs mods) :=
    fun limit => typeAfterModifiers_adds K limit start attrs mods
  apply Tracks.remaining hadds hadds
  intro w hw
  apply (typeAfterModifiers_tracks (n := w.length) _ _ start attrs mods (Nat.le_refl _)
    (Nat.lt_succ_self _)).mono
  · exact fun _ heq => Nat.le_of_eq (congrArg _ heq)
  · exact id
  · exact fun _ _ hlt => Nat.lt_of_lt_of_le hlt hw

theorem typeDecl_stops : Idles K e typeDecl fun _ => True := by
  apply Idles.look
  intro start
  apply attributes_rests.bind
  intro _ attrs _
  apply modifiers_rests.bind
  exact fun _ mods _ => limitedType_stops start attrs mods

theorem typeDecl_strict : Strict K true typeDecl := by
  have hmodified : ∀ start attrs, Strict K true (do
      let mods ← modifiers
      let limit ← Attempt.gets Cursor.remaining
      typeAfterModifiers limit start attrs mods) := fun start attrs =>
    modifiers_loose.strict (limitedType_strict start attrs) fun _ => limitedType_stops start attrs
  have hstops : ∀ start attrs, Idles K false (do
      let mods ← modifiers
      let limit ← Attempt.gets Cursor.remaining
      typeAfterModifiers limit start attrs mods) fun _ => True := fun start attrs =>
    modifiers_rests.bind fun _ mods _ => limitedType_stops start attrs mods
  intro n
  apply Tracks.here
  · exact fun start => attributes_loose.strict (hmodified start) (fun _ => hstops start) n
  · intro _ start
    exact (attributes_rests.bind fun _ attrs _ => hstops start attrs).stops

variable {inner inner' : Parser (List NamespaceMember)}

theorem namespaceWith_tracks (hadds : Adds inner) (hadds' : Adds inner')
    (h : ∀ m < n, Tracks K (upTo m) true inner inner' fun _ => upTo m) :
    Tracks K (upTo n) true (namespaceWith inner) (namespaceWith inner') fun _ => below n := by
  apply Tracks.here
  · intro start
    apply (expect_strict (by simp) n).next
    intro _
    apply (qualifiedName_strict.loose.below n).bind
    · intro name
      apply ((expect_strict (by simp)).loose.below n).next
      intro _
      apply (Tracks.fewer hadds hadds' h).bind
      · intro members
        apply ((expect_strict (by simp)).loose.below n).next
        exact fun _ => Tracks.span fun _ => Tracks.pure fun _ => id
      · exact fun _ members _ => (Idles.expect (by simp)).andThen
    · exact fun _ name _ => (Idles.expect (by simp)).andThen
  · exact fun _ start => (Idles.expect (by simp)).andThen

theorem namespaceMember_tracks (hadds : Adds inner) (hadds' : Adds inner')
    (h : ∀ m < n, Tracks K (upTo m) true inner inner' fun _ => upTo m) :
    Tracks K (upTo n) true (namespaceMember inner) (namespaceMember inner') fun _ => below n := by
  apply Tracks.check_then (by simp)
  · exact Tracks.anywhere (namespaceWith_tracks hadds hadds' h)
  · apply (typeDecl_strict n).bind
    · exact fun decl => Tracks.pure fun _ => id
    · exact fun _ decl hn => Idles.pure hn
  · exact fun _ => typeDecl_stops.andThen

/-- What ends the members of a namespace, as something to look at. -/
theorem stopsMembers_eq (topLevel : Bool) :
    (if topLevel then pure false else checkSymbol .closeBrace) =
      Attempt.gets fun c => !topLevel && c.current.kind == .symbol .closeBrace := by
  cases topLevel <;> rfl

theorem namespaceMembers_rests (limit : Nat) (topLevel : Bool) :
    Idles K true (namespaceMembers (limit + 1) topLevel) fun _ => True := by
  rw [namespaceMembers, stopsMembers_eq]
  exact elements_rests _

theorem namespaceMember_adds (K : Cut) (h : Adds inner) : Adds (namespaceMember inner) := by
  have hexpect : ∀ {k : TokenKind}, k ≠ .endOfInput → Adds (expect k) :=
    fun hk => (expect_strict (K := K) (e := true) hk 0).adds
  apply (Adds.gets _).bind
  intro isSpace
  split
  · apply (Adds.gets _).bind
    intro start
    apply (hexpect (by simp)).bind
    intro _
    apply (qualifiedName_strict (K := K) 0).adds.bind
    intro name
    apply (hexpect (by simp)).bind
    intro _
    apply h.bind
    intro members
    apply (hexpect (by simp)).bind
    exact fun _ => ((Adds.gets _).bind fun _ => Adds.pure _).bind fun _ => Adds.pure _
  · exact (typeDecl_strict (K := K) 0).adds.bind fun decl => Adds.pure _

theorem namespaceMembers_adds (K : Cut) (limit : Nat) (topLevel : Bool) :
    Adds (namespaceMembers limit topLevel) := by
  induction limit generalizing topLevel with
  | zero => exact Adds.fail
  | succ limit ih =>
    rw [namespaceMembers, stopsMembers_eq]
    exact elements_adds (Adds.gets _) (namespaceMember_adds K (ih false))

theorem namespaceMembers_tracks (limit limit' : Nat) (topLevel : Bool)
    (hlimit : n + K.lost.length ≤ limit) (hlimit' : n < limit') :
    Tracks K (upTo n) true (namespaceMembers limit topLevel) (namespaceMembers limit' topLevel)
      fun _ => upTo n := by
  induction limit generalizing limit' n topLevel with
  | zero =>
    refine ⟨namespaceMembers_adds K 0 _, namespaceMembers_adds K _ _, ?_⟩
    intro w c d hat hw
    have hpos := hat.left_pos
    have hle : w.length ≤ n := hw
    omega
  | succ limit ih =>
    obtain ⟨limit', rfl⟩ := Nat.exists_eq_succ_of_ne_zero (Nat.ne_of_gt (Nat.zero_lt_of_lt hlimit'))
    rw [namespaceMembers, namespaceMembers, stopsMembers_eq]
    apply elements_tracks fun hat => by rw [hat.current, hat.current']
    intro m hm
    apply namespaceMember_tracks (namespaceMembers_adds K limit false)
      (namespaceMembers_adds K limit' false)
    exact fun j hj => ih limit' false (by omega) (by omega)

/-- The members of a chunk, with as many levels as there are tokens left. -/
theorem limitedMembers_rests {S : DeclarationUnit → Prop} (start : Span) (usings : List UsingDirective)
    (hS : ∀ u, S u) : Idles K true (do
      let limit ← Attempt.gets Cursor.remaining
      let members ← namespaceMembers limit true
      return ⟨usings, members, ← spanFrom start⟩ : Parser DeclarationUnit) S := by
  apply (Idles.gets (R := (· = 1)) fun _ hd => hd.remaining).bind
  intro _ limit hlimit
  rw [hlimit]
  apply (namespaceMembers_rests 0 true).bind
  exact fun _ members _ => Idles.span fun _ => Idles.pure (hS _)

theorem limitedMembers_loose (start : Span) (usings : List UsingDirective) : Loose K true (do
    let limit ← Attempt.gets Cursor.remaining
    let members ← namespaceMembers limit true
    return ⟨usings, members, ← spanFrom start⟩ : Parser DeclarationUnit) := by
  intro n
  have hadds : ∀ limit, Adds (do
      let members ← namespaceMembers limit true
      return ⟨usings, members, ← spanFrom start⟩ : Parser DeclarationUnit) := fun limit =>
    (namespaceMembers_adds K limit true).bind fun _ =>
      ((Adds.gets _).bind fun _ => Adds.pure _).bind fun _ => Adds.pure _
  apply Tracks.remaining hadds hadds
  intro w hw
  have hmembers := namespaceMembers_tracks (K := K) (n := w.length) _ _ true (Nat.le_refl _)
    (Nat.lt_succ_self _)
  apply (hmembers.mono (fun _ heq => Nat.le_of_eq (congrArg _ heq)) id
    fun _ _ hle => Nat.le_trans hle hw).bind
  · exact fun members => Tracks.span fun _ => Tracks.pure fun _ => id
  · exact fun _ members hn => Idles.span fun _ => Idles.pure hn

theorem declarationUnit_rests : Idles K true declarationUnit fun _ => True := by
  apply Idles.look
  intro start
  apply usingDirectives_rests.bind
  exact fun _ usings _ => limitedMembers_rests start usings fun _ => trivial

theorem declarationUnit_loose : Loose K true declarationUnit := by
  intro n
  apply Tracks.here
  · intro start
    apply (usingDirectives_loose n).bind
    · exact fun usings => limitedMembers_loose start usings n
    · exact fun _ usings _ => limitedMembers_rests start usings fun _ => Nat.zero_le n
  · intro _ start
    apply usingDirectives_rests.bind
    exact fun _ usings _ => limitedMembers_rests start usings fun _ => Nat.zero_le n

end Parser

end Chunkwise
