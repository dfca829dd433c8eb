import Chunkwise.Binder.State
import Chunkwise.Proofs.Attempt

/-!
A step of binding is careful if it never forgets an issue, gives up only with a new issue, and has the
result that is asked of it whenever it ends without a new one. What is put together from careful steps is
careful, so that a chunk without issues has lost nothing on the way.
-/
namespace Chunkwise

/-- The number of issues counted so far. -/
def BindState.count (s : BindState) : Nat := s.issues.total

/-- The log keeps an entry if it counts any. -/
def Log.Honest {α : Type} (l : Log α) : Prop := 0 < l.total → l.stored ≠ []

theorem Log.honest_push {α : Type} (l : Log α) (a : α) : (l.push a).Honest := by
  intro _
  unfold Log.push
  dsimp only
  split
  · simp
  · next hfull =>
    intro hnil
    rw [hnil] at hfull
    simp [maxErrors] at hfull

/-- No issue has been forgotten from the first state to the second. -/
structure BindState.LogGrows (s s' : BindState) : Prop where
  count : s.count ≤ s'.count
  honest : s.issues.Honest → s'.issues.Honest

theorem BindState.LogGrows.ofSame {s s' : BindState} (h : s'.issues = s.issues) : s.LogGrows s' :=
  ⟨Nat.le_of_eq (congrArg Log.total h).symm, fun hs => h ▸ hs⟩

theorem BindState.LogGrows.trans {s s' s'' : BindState} (h : s.LogGrows s') (h' : s'.LogGrows s'') :
    s.LogGrows s'' :=
  ⟨Nat.le_trans h.count h'.count, fun hs => h'.honest (h.honest hs)⟩

def Counts {α : Type} (p : Bind α) : Prop := ∀ s : BindState, s.LogGrows (p s).2

namespace Counts

variable {α β : Type}

theorem pure (a : α) : Counts (Pure.pure a) := fun _ => .ofSame rfl

theorem bind {p : Bind α} {f : α → Bind β} (hp : Counts p) (hf : ∀ a, Counts (f a)) :
    Counts (p >>= f) := by
  intro s
  have hfirst := hp s
  change s.LogGrows (Attempt.bind p f s).2
  rw [Attempt.bind]
  revert hfirst
  rcases p s with ⟨_ | a, s'⟩
  · exact id
  · exact fun hfirst => hfirst.trans (hf a s')

theorem le_bind (p : Bind α) {f : α → Bind β} (s : BindState) (hf : ∀ a, Counts (f a)) :
    (p s).2.count ≤ ((p >>= f) s).2.count := by
  change _ ≤ (Attempt.bind p f s).2.count
  unfold Attempt.bind
  rcases p s with ⟨_ | a, s'⟩
  · exact Nat.le_refl _
  · exact (hf a s').count

theorem optional {p : Bind α} (hp : Counts p) : Counts (Attempt.optional p) := fun s => hp s

theorem forAll {f : α → Bind β} {as : List α} (h : ∀ a ∈ as, Counts (f a)) :
    Counts (Attempt.forAll f as) := by
  induction as with
  | nil => exact pure []
  | cons a as ih =>
    have hrest := ih fun x hx => h x (List.mem_cons_of_mem a hx)
    exact (h a List.mem_cons_self).optional.bind fun _ => hrest.bind fun _ => pure _

theorem keepSome {f : α → Bind β} {as : List α} (h : ∀ a ∈ as, Counts (f a)) :
    Counts (Attempt.keepSome f as) := (forAll h).bind fun _ => pure _

end Counts

/-- From a state with `P`, the step gives up only with a new issue, and without a new issue it yields a
value and a state with `Q`. -/
structure Careful {α : Type} (P : BindState → Prop) (p : Bind α) (Q : α → BindState → Prop) : Prop where
  grows : Counts p
  ends : ∀ s, P s → match p s with
    | (some a, s') => s'.count = s.count → Q a s'
    | (none, s') => s.count < s'.count

namespace Careful

variable {α β : Type} {P P' : BindState → Prop} {Q Q' : α → BindState → Prop}
  {R : β → BindState → Prop}

theorem mono {p : Bind α} (h : Careful P p Q) (hP : ∀ s, P' s → P s)
    (hQ : ∀ a s, Q a s → Q' a s) : Careful P' p Q' := by
  refine ⟨h.grows, fun s hs => ?_⟩
  have hends := h.ends s (hP s hs)
  revert hends
  rcases p s with ⟨_ | a, s'⟩
  · exact id
  · exact fun hq hcount => hQ a s' (hq hcount)

theorem pure {a : α} (h : ∀ s, P s → Q a s) : Careful P (Pure.pure a) Q :=
  ⟨Counts.pure a, fun s hs _ => h s hs⟩

theorem bind {p : Bind α} {f : α → Bind β} (hp : Careful P p Q) (hf : ∀ a, Careful (Q a) (f a) R) :
    Careful P (p >>= f) R := by
  have hrun : ∀ s, (p >>= f) s = Attempt.bind p f s := fun _ => rfl
  refine ⟨hp.grows.bind fun a => (hf a).grows, fun s hs => ?_⟩
  have hfirst := (hp.grows s).count
  have hends := hp.ends s hs
  rw [hrun, Attempt.bind]
  revert hfirst hends
  rcases p s with ⟨_ | a, s'⟩
  · exact fun _ hends => hends
  · intro hfirst hends
    dsimp only at hfirst hends ⊢
    have hsecond := ((hf a).grows s').count
    -- a new issue of the first step stays, whatever the second does
    by_cases hquiet : s'.count = s.count
    · have hrest := (hf a).ends s' (hends hquiet)
      rw [hquiet] at hrest
      exact hrest
    · revert hsecond
      rcases f a s' with ⟨_ | b, s''⟩
      · intro hsecond
        dsimp only at hsecond ⊢
        omega
      · intro hsecond hcount
        dsimp only at hsecond hcount
        omega

theorem fail : Careful (fun _ => False) (Attempt.fail : Bind α) Q :=
  ⟨fun _ => .ofSame rfl, fun _ hs => hs.elim⟩

theorem gets {f : BindState → α} (h : ∀ s, P s → Q (f s) s) : Careful P (Attempt.gets f) Q :=
  ⟨fun _ => .ofSame rfl, fun s hs _ => h s hs⟩

theorem modify {f : BindState → BindState} {Q : Unit → BindState → Prop}
    (hissues : ∀ s, (f s).issues = s.issues) (h : ∀ s, P s → Q () (f s)) :
    Careful P (Attempt.modify f) Q :=
  ⟨fun s => .ofSame (hissues s), fun s hs _ => h s hs⟩

theorem ofOption {a? : Option α} (h : ∀ s, P s → ∃ a, a? = some a ∧ Q a s) :
    Careful P (Attempt.ofOption a?) Q := by
  refine ⟨fun _ => .ofSame rfl, fun s hs => ?_⟩
  obtain ⟨a, rfl, ha⟩ := h s hs
  exact fun _ => ha

theorem optional {p : Bind α} (hp : Careful P p Q) :
    Careful P (Attempt.optional p) fun a? s => ∃ a, a? = some a ∧ Q a s := by
  have hrun : ∀ s, Attempt.optional p s = (some (p s).1, (p s).2) := fun _ => rfl
  refine ⟨hp.grows.optional, fun s hs => ?_⟩
  have hends := hp.ends s hs
  rw [hrun]
  revert hends
  rcases p s with ⟨_ | a, s'⟩
  · intro hends hcount
    dsimp only at hends hcount
    omega
  · exact fun hends hcount => ⟨a, rfl, hends hcount⟩

theorem report (p : Problem) (span : Span) {Q : Unit → BindState → Prop} :
    Careful P (Bind.report p span) Q := by
  have hcount : ∀ s, ((Bind.report p span : Bind Unit) s).2.count = s.count + 1 := fun _ => rfl
  refine ⟨fun s => ⟨Nat.le_of_lt (hcount s ▸ Nat.lt_succ_self _), fun _ => Log.honest_push _ _⟩,
    fun s _ hquiet => ?_⟩
  have hsame : s.count + 1 = s.count := (hcount s).symm.trans hquiet
  omega

theorem refuse (p : Problem) (span : Span) : Careful P (Bind.refuse p span) Q :=
  (report p span (Q := fun _ _ => False)).bind fun _ => fail

theorem start {p : Bind α} (hgrows : Counts p) (h : ∀ s, P s → Careful (· = s) p Q) :
    Careful P p Q :=
  ⟨hgrows, fun s hs => (h s hs).ends s rfl⟩

theorem counted {p : Bind α} (hp : Careful P p Q) (n : Nat) :
    Careful (fun s => P s ∧ s.count = n) p fun a s => Q a s ∧ s.count = n := by
  refine ⟨hp.grows, fun s hs => ?_⟩
  have hends := hp.ends s hs.1
  revert hends
  rcases p s with ⟨_ | a, s'⟩
  · exact id
  · exact fun hends hcount => ⟨hends hcount, hcount.trans hs.2⟩

theorem forAll {I : BindState → Prop} {f : α → Bind β} {Q : α → β → Prop} {as : List α}
    (h : ∀ a ∈ as, Careful I (f a) fun b s => I s ∧ Q a b) :
    Careful I (Attempt.forAll f as) fun bs s =>
      I s ∧ ∃ cs, bs = cs.map some ∧ List.Forall₂ Q as cs := by
  induction as with
  | nil => exact pure fun s hs => ⟨hs, [], rfl, .nil⟩
  | cons a as ih =>
    unfold Attempt.forAll
    refine (h a List.mem_cons_self).optional.bind fun b? => ?_
    have hrest := ih fun x hx => h x (List.mem_cons_of_mem a hx)
    refine Careful.bind (Q := fun bs s => I s ∧ ∃ b cs, b? = some b ∧ Q a b ∧ bs = cs.map some ∧
      List.Forall₂ Q as cs) ⟨hrest.grows, fun s hs => ?_⟩ fun bs => pure ?_
    · obtain ⟨b, rfl, hI, hb⟩ := hs
      have hends := hrest.ends s hI
      revert hends
      rcases Attempt.forAll f as s with ⟨_ | bs, s'⟩
      · exact id
      · intro hends hcount
        obtain ⟨hI', cs, rfl, hcs⟩ := hends hcount
        exact ⟨hI', b, cs, rfl, hb, rfl, hcs⟩
    · rintro s ⟨hI, b, cs, rfl, hb, rfl, hcs⟩
      exact ⟨hI, b :: cs, rfl, .cons hb hcs⟩

/-- A loop that keeps what it yields keeps something for each element. -/
theorem keepSome {I : BindState → Prop} {f : α → Bind β} {Q : α → β → Prop} {as : List α}
    (h : ∀ a ∈ as, Careful I (f a) fun b s => I s ∧ Q a b) :
    Careful I (Attempt.keepSome f as) fun bs s => I s ∧ List.Forall₂ Q as bs := by
  unfold Attempt.keepSome
  refine (forAll h).bind fun bs => pure fun s hs => ?_
  obtain ⟨hI, cs, rfl, hcs⟩ := hs
  rw [List.filterMap_map]
  simpa using ⟨hI, hcs⟩

end Careful

abbrev TypeTable := Path → Option TypeDef

/-- A careful step that leaves the types alone: what holds of them holds at the end, and `H` is enough
for a value with `Q`. -/
def Sure {α : Type} (J : TypeTable → Prop) (H : Prop) (p : Bind α) (Q : α → Prop) : Prop :=
  Careful (fun s => J s.image.typeDef? ∧ H) p fun a s => J s.image.typeDef? ∧ Q a

namespace Sure

variable {α β : Type} {J : TypeTable → Prop} {H H' : Prop} {Q Q' : α → Prop} {R : β → Prop}

theorem mono {p : Bind α} (h : Sure J H p Q) (hH : H' → H) (hQ : ∀ a, Q a → Q' a) : Sure J H' p Q' :=
  Careful.mono h (fun _ hs => ⟨hs.1, hH hs.2⟩) fun a _ ha => ⟨ha.1, hQ a ha.2⟩

theorem pure {a : α} (h : H → Q a) : Sure J H (Pure.pure a) Q :=
  Careful.pure fun _ hs => ⟨hs.1, h hs.2⟩

theorem keeping {p : Bind α} (h : Sure J H p Q) :
    Careful (fun s => J s.image.typeDef? ∧ H) p fun a s => (J s.image.typeDef? ∧ H) ∧ Q a := by
  refine ⟨h.grows, fun s hs => ?_⟩
  have hends := h.ends s hs
  revert hends
  rcases p s with ⟨_ | a, s'⟩
  · exact id
  · exact fun hends hcount => ⟨⟨(hends hcount).1, hs.2⟩, (hends hcount).2⟩

theorem imp {p : Bind α} (h : Sure J H p Q) (hQ : ∀ a, H → Q a → Q' a) : Sure J H p Q' :=
  Careful.mono h.keeping (fun _ hs => hs) fun a _ ha => ⟨ha.1.1, hQ a ha.1.2 ha.2⟩

theorem bind {p : Bind α} {f : α → Bind β} (hp : Sure J H p Q) (hf : ∀ a, Sure J (H ∧ Q a) (f a) R) :
    Sure J H (p >>= f) R := by
  exact hp.keeping.bind fun a =>
    Careful.mono (hf a) (fun _ hs => ⟨hs.1.1, hs.1.2, hs.2⟩) fun _ _ hb => hb

theorem refuse (problem : Problem) (span : Span) : Sure J H (Bind.refuse problem span) Q :=
  Careful.refuse problem span

theorem fail (h : ¬H) : Sure J H (Attempt.fail : Bind α) Q :=
  Careful.mono Careful.fail (fun _ hs => h hs.2) fun _ _ hs => hs

theorem gets (f : BindState → α) : Sure J H (Attempt.gets f) fun _ => True :=
  Careful.gets fun _ hs => ⟨hs.1, trivial⟩

theorem optional {p : Bind α} (hp : Sure J H p Q) :
    Sure J H (Attempt.optional p) fun a? => ∃ a, a? = some a ∧ Q a :=
  (Careful.optional hp).mono (fun _ hs => hs) fun _ _ ⟨a, ha, hs, hq⟩ => ⟨hs, a, ha, hq⟩

theorem ofOption {a? : Option α} (h : H → ∃ a, a? = some a ∧ Q a) : Sure J H (Attempt.ofOption a?) Q := by
  refine Careful.ofOption fun s hs => ?_
  obtain ⟨a, ha, hq⟩ := h hs.2
  exact ⟨a, ha, hs.1, hq⟩

theorem forAll {f : α → Bind β} {Q : α → β → Prop} {as : List α}
    (h : ∀ a ∈ as, Sure J H (f a) (Q a)) : Sure J H (Attempt.forAll f as) fun bs =>
      ∃ cs, bs = cs.map some ∧ List.Forall₂ Q as cs := by
  exact (Careful.forAll fun a ha => (h a ha).keeping).mono (fun _ hs => hs)
    fun _ _ hbs => ⟨hbs.1.1, hbs.2⟩

theorem keepSome {f : α → Bind β} {Q : α → β → Prop} {as : List α}
    (h : ∀ a ∈ as, Sure J H (f a) (Q a)) :
    Sure J H (Attempt.keepSome f as) (List.Forall₂ Q as) := by
  exact (Careful.keepSome fun a ha => (h a ha).keeping).mono (fun _ hs => hs)
    fun _ _ hbs => ⟨hbs.1.1, hbs.2⟩

theorem total {p : Bind α} (h : ∀ s, ∃ a s', p s = (some a, s') ∧ s'.issues = s.issues ∧
    s'.image = s.image ∧ Q a) : Sure J H p Q := by
  constructor
  · intro s
    obtain ⟨a, s', hrun, hissues, -⟩ := h s
    rw [hrun]
    exact .ofSame hissues
  · intro s hs
    obtain ⟨a, s', hrun, -, himage, ha⟩ := h s
    rw [hrun]
    exact fun _ => ⟨himage ▸ hs.1, ha⟩

theorem modify {f : BindState → BindState} (hissues : ∀ s, (f s).issues = s.issues)
    (himage : ∀ s, (f s).image = s.image) : Sure J H (Attempt.modify f) fun _ => True :=
  Careful.modify hissues fun s hs => ⟨himage s ▸ hs.1, trivial⟩

end Sure

end Chunkwise
