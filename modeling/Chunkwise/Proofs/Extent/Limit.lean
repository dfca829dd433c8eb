import Chunkwise.Proofs.Extent.Decl

/-!
Nested types, nested namespaces and recovery are bounded by a limit that is the number of tokens left.
The bound is never what ends them: each level passes a token before it goes down, so with any larger limit
the outcome is the same. Two parsers `Agree` from a position on if they have the same outcome there, and the
rules for it follow the parsers as those of `Goes` do, which tell the positions in between.
-/
namespace Chunkwise.Parser

open Script

variable {T : Script} {h i j : Nat} {α β : Type}

/-- The parsers have the same outcome at the position. -/
def Agree (T : Script) (i : Nat) (p q : Parser α) : Prop := ∀ c, c.At T i → p c = q c

namespace Agree

variable {p q : Parser α} {f g : α → Parser β} {B : α → Nat → Prop} {E : Prop}

theorem refl (p : Parser α) : Agree T i p p := fun _ _ => rfl

theorem bind (hp : Goes T E i p B) (hfg : ∀ a j, i ≤ j → B a j → Agree T j (f a) (g a)) :
    Agree T i (p >>= f) (p >>= g) := by
  intro c hc
  have hlands := hp c hc
  change Attempt.bind p f c = Attempt.bind p g c
  unfold Attempt.bind
  revert hlands
  generalize p c = r
  intro hlands
  cases hlands with
  | yields hij hc' ha => exact hfg _ _ hij ha _ hc'
  | givesUp => rfl

theorem andThen (hpq : Agree T i p q) : Agree T i (p >>= f) (q >>= f) := by
  intro c hc
  change Attempt.bind p f c = Attempt.bind q f c
  rw [Attempt.bind, Attempt.bind, hpq c hc]

theorem look {s : Cursor → α} (hfg : ∀ a, Agree T i (f a) (g a)) :
    Agree T i (Attempt.gets s >>= f) (Attempt.gets s >>= g) := fun c hc => hfg (s c) c hc

theorem optional {f : Option α → Parser β} (hpq : Agree T i p q) :
    Agree T i (Attempt.optional p >>= f) (Attempt.optional q >>= f) := by
  apply andThen
  intro c hc
  rw [Attempt.optional, Attempt.optional, hpq c hc]

theorem ite {P : Prop} [Decidable P] {p' q' : Parser α} (hpq : Agree T i p q) (hpq' : Agree T i p' q') :
    Agree T i (if P then p else p') (if P then q else q') := by
  split
  · exact hpq
  · exact hpq'

theorem expect {l : TokenKind} {f g : Unit → Parser β} (hl : l ≠ .endOfInput)
    (hfg : Agree T (i + 1) (f ()) (g ())) : Agree T i (Parser.expect l >>= f) (Parser.expect l >>= g) := by
  apply bind (Goes.expected_token hl)
  rintro - j - rfl
  exact hfg

end Agree

theorem Keeps.agree {E : Prop} {step step' : β → Parser (β ⊕ α)} {I : β → Nat → Prop} {B : α → Nat → Prop}
    (h : Keeps T E step I B) (hagree : ∀ b j, i ≤ j → Agree T j (step b) (step' b)) (b : β) :
    Agree T i (Parser.repeatFrom step b) (Parser.repeatFrom step' b) := by
  have hloop : ∀ limit b j c, i ≤ j → c.At T j →
      Attempt.loop step limit b c = Attempt.loop step' limit b c := by
    intro limit
    induction limit with
    | zero => exact fun _ _ _ _ _ => rfl
    | succ limit ih =>
      intro b j c hij hc
      have hround := h b j c hc
      change Attempt.bind (step b) _ c = Attempt.bind (step' b) _ c
      rw [Attempt.bind, Attempt.bind, ← hagree b j hij c hc]
      revert hround
      generalize step b c = r
      intro hround
      cases hround with
      | @yields r c' k hjk hc' hr =>
        cases r with
        | inl b' => exact ih b' k c' (Nat.le_trans hij hjk) hc'
        | inr a => rfl
      | givesUp => rfl
  exact fun c hc => hloop c.remaining b i c (Nat.le_refl i) hc

/-- From the position on, the parsers agree on all that a type may begin with. -/
def AgreeOnTypes (T : Script) (i : Nat) (nested nested' : TypeParser) : Prop :=
  ∀ j, i ≤ j → ∀ start attrs mods, Agree T j (nested start attrs mods) (nested' start attrs mods)

variable {nested nested' : TypeParser}

theorem member_agree (hn : AgreeOnTypes T i nested nested') (owner : String) :
    Agree T i (member nested owner) (member nested' owner) := by
  apply Agree.look
  intro start
  apply Agree.bind attributes_goes
  intro attrs a hia _
  apply Agree.bind modifiers_goes
  intro mods b hab _
  apply Agree.look
  intro k
  apply Agree.ite
  · exact (hn b (Nat.le_trans hia hab) start attrs mods).andThen
  · exact Agree.refl _

theorem memberRound_agree (hn : AgreeOnTypes T i nested nested') (owner : String) (ms : List MemberDecl) :
    Agree T i (memberRound nested owner ms) (memberRound nested' owner ms) := by
  apply Agree.look
  intro closed
  apply Agree.ite (Agree.refl _)
  apply Agree.look
  intro ended
  apply Agree.ite (Agree.refl _)
  apply Agree.look
  intro full
  apply Agree.ite (Agree.refl _)
  apply Agree.look
  intro before
  exact (member_agree hn owner).optional

theorem memberList_agree (hb : BuildsType T nested) (hn : AgreeOnTypes T i nested nested')
    (owner : String) : Agree T i (memberList nested owner) (memberList nested' owner) := by
  rw [memberList, memberList]
  refine (memberRound_appends hb owner i).agree ?_ []
  exact fun ms j hij => memberRound_agree (fun k hjk => hn k (Nat.le_trans hij hjk)) owner ms

theorem typeAfterModifiers_agree (limit limit' : Nat) (hlimit : T.body.length + 1 - i ≤ limit)
    (hlimit' : T.body.length + 1 - i ≤ limit') :
    AgreeOnTypes T i (typeAfterModifiers limit) (typeAfterModifiers limit') := by
  induction limit generalizing limit' i with
  | zero =>
    intro j hij start attrs mods c hc
    have hle := hc.le
    omega
  | succ limit ih =>
    intro j hij start attrs mods c hc
    have hle := hc.le
    obtain ⟨limit', rfl⟩ : ∃ m, limit' = m + 1 := Nat.exists_eq_succ_of_ne_zero (by omega)
    have hagree : Agree T j (typeAfterModifiers (limit + 1) start attrs mods)
        (typeAfterModifiers (limit' + 1) start attrs mods) := by
      apply Agree.bind (typeHead_goes attrs mods)
      intro head a hja ⟨hlt, _⟩
      apply Agree.expect (by simp)
      apply Agree.ite (Agree.refl _)
      apply Agree.andThen
      exact memberList_agree (typeAfterModifiers_builds limit) (ih limit' (by omega) (by omega)) _
    exact hagree c hc

variable {inner inner' : Parser (List NamespaceMember)}

theorem namespaceMember_agree (hinner : ∀ j, i < j → Agree T j inner inner') :
    Agree T i (namespaceMember inner) (namespaceMember inner') := by
  apply Agree.look
  intro isNamespace
  apply Agree.ite
  · apply Agree.look
    intro start
    apply Agree.expect (by simp)
    apply Agree.bind (qualifiedName_builds _)
    intro name a hia _
    apply Agree.expect (by simp)
    exact (hinner _ (by omega)).andThen
  · exact Agree.refl _

theorem elements_agree {stop : Parser Bool} {element element' : Parser α} {tree : α → SpanTree}
    (hstop : ∀ i, Goes T False i stop fun _ j => j = i) (hb : Builds T element tree)
    (hagree : ∀ j, i ≤ j → Agree T j element element') :
    Agree T i (elements stop element) (elements stop element') := by
  rw [elements, elements]
  refine (elementRound_appends hstop hb i).agree ?_ []
  intro as j hij
  apply Agree.bind (hstop j)
  rintro stopped j - rfl
  apply Agree.ite (Agree.refl _)
  apply Agree.look
  intro ended
  apply Agree.ite (Agree.refl _)
  apply Agree.look
  intro full
  apply Agree.ite (Agree.refl _)
  apply Agree.look
  intro before
  exact (hagree j hij).optional

theorem namespaceMembers_agree (limit limit' : Nat) (topLevel : Bool)
    (hlimit : T.body.length + 1 - i ≤ limit) (hlimit' : T.body.length + 1 - i ≤ limit') :
    Agree T i (namespaceMembers limit topLevel) (namespaceMembers limit' topLevel) := by
  induction limit generalizing limit' i topLevel with
  | zero =>
    intro c hc
    have hle := hc.le
    omega
  | succ limit ih =>
    intro c hc
    have hle := hc.le
    obtain ⟨limit', rfl⟩ : ∃ m, limit' = m + 1 := Nat.exists_eq_succ_of_ne_zero (by omega)
    have hbuilds := namespaceMember_builds fun i =>
      (namespaceMembers_goes (T := T) limit false i).permit fun _ => trivial
    apply elements_agree (memberStop_goes topLevel) hbuilds _ c hc
    intro j hij
    apply namespaceMember_agree
    intro k hjk
    exact ih limit' false (by omega) (by omega)

theorem synchronizeFrom_agree (limit limit' depth : Nat) (moved : Bool) {c : Cursor} (hc : c.At T i)
    (hlimit : c.remaining ≤ limit) (hlimit' : c.remaining ≤ limit') :
    synchronizeFrom limit depth moved c = synchronizeFrom limit' depth moved c := by
  induction limit generalizing limit' depth moved c i with
  | zero => exact absurd hlimit (by simp [Cursor.remaining])
  | succ limit ih =>
    have hle := hc.le
    rw [hc.remaining] at hlimit hlimit'
    obtain ⟨limit', rfl⟩ : ∃ m, limit' = m + 1 := Nat.exists_eq_succ_of_ne_zero (by omega)
    by_cases hend : T.kindAt i = .endOfInput
    · rw [synchronizeFrom, synchronizeFrom, hc.kind, hend]
    have hnext := hc.advance hend
    have hrest : ∀ depth, synchronizeFrom limit depth true c.advance =
        synchronizeFrom limit' depth true c.advance := by
      intro depth
      apply ih limit' depth true hnext
      · rw [hnext.remaining]
        omega
      · rw [hnext.remaining]
        omega
    rw [synchronizeFrom, synchronizeFrom]
    simp only [hrest]

end Chunkwise.Parser
