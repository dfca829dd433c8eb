import Chunkwise.Proofs.Attempt
import Chunkwise.Proofs.Cache.Key

/-!
The cache makes no difference as long as things stay where they are: `Chart.Fits` is the invariant that
makes lookups transparent. To say of all points at which a name is looked up that the invariant holds there,
binding is compared with itself under a lookup that may do anything where it does not hold. `Agrees` is the
contract of the comparison.
-/
namespace Chunkwise

/-- From a state with the invariant the two do the same, the invariant is kept, and what they yield has
the property. -/
def Attempt.Agrees {σ α : Type} (I : σ → Prop) (p q : Attempt σ α) (Q : α → Prop) : Prop :=
  Parallel (fun s t => s = t ∧ I s) (fun a b => a = b ∧ Q a) p q

namespace Attempt.Agrees

variable {σ α β : Type} {I : σ → Prop} {Q Q' : α → Prop} {R : β → Prop} {p q : Attempt σ α}

theorem same (h : Agrees I p q Q) {s : σ} (hs : I s) : p s = q s := by
  obtain ⟨hval, hafter, -⟩ := h s s ⟨rfl, hs⟩
  refine Prod.ext ?_ hafter
  generalize (p s).1 = a? at hval ⊢
  generalize (q s).1 = b? at hval ⊢
  cases hval with
  | none => rfl
  | some hab => exact congrArg some hab.1

theorem ofSame (h : ∀ s, I s → p s = q s) (hq : Yields I q Q) : Agrees I p q Q := by
  rintro s _ ⟨rfl, hs⟩
  have hrun := hq s hs
  rw [h s hs]
  revert hrun
  rcases q s with ⟨_ | a, s'⟩
  · exact fun hs' => ⟨.none, rfl, hs'⟩
  · exact fun ⟨hs', ha⟩ => ⟨.some ⟨rfl, ha⟩, rfl, hs'⟩

theorem refl (h : Yields I p Q) : Agrees I p p Q := ofSame (fun _ _ => rfl) h

theorem ofParallel {A : α → α → Prop} (h : Parallel (fun s t => s = t ∧ I s) A p q)
    (hA : ∀ a b, A a b → a = b) : Agrees I p q fun _ => True :=
  Parallel.mono h fun a b hab => ⟨hA a b hab, trivial⟩

theorem mono (h : Agrees I p q Q) (hQ : ∀ a, Q a → Q' a) : Agrees I p q Q' :=
  Parallel.mono h fun a _ hab => ⟨hab.1, hQ a hab.2⟩

theorem pure {a : α} (h : Q a) : Agrees I (Pure.pure a) (Pure.pure a) Q := Parallel.pure ⟨rfl, h⟩

theorem bind {f g : α → Attempt σ β} (hp : Agrees I p q Q)
    (hf : ∀ a, Q a → Agrees I (f a) (g a) R) : Agrees I (p >>= f) (q >>= g) R := by
  refine Parallel.bind hp ?_
  rintro a _ ⟨rfl, ha⟩
  exact hf a ha

theorem ite {c : Prop} [Decidable c] {p' q' : Attempt σ α} (h : Agrees I p q Q)
    (h' : Agrees I p' q' Q) : Agrees I (if c then p else p') (if c then q else q') Q :=
  Parallel.ite Iff.rfl h h'

theorem optional (h : Agrees I p q Q) :
    Agrees I (Attempt.optional p) (Attempt.optional q) fun a? => ∀ a, a? = some a → Q a := by
  refine (Parallel.optional h).mono fun a? b? hab => ?_
  cases hab with
  | none => exact ⟨rfl, by simp⟩
  | some hab => exact ⟨congrArg some hab.1, by simpa using hab.2⟩

theorem forAll {f g : α → Attempt σ β} {as : List α} (h : ∀ a ∈ as, Agrees I (f a) (g a) R) :
    Agrees I (Attempt.forAll f as) (Attempt.forAll g as)
      fun bs => ∀ b? ∈ bs, ∀ b, b? = some b → R b := by
  induction as with
  | nil => exact pure (by simp)
  | cons a as ih =>
    refine (h a List.mem_cons_self).optional.bind fun b? hb => ?_
    refine (ih fun x hx => h x (List.mem_cons_of_mem _ hx)).bind fun bs hbs => pure ?_
    exact List.forall_mem_cons.mpr ⟨hb, hbs⟩

theorem keepSome {f g : α → Attempt σ β} {as : List α} (h : ∀ a ∈ as, Agrees I (f a) (g a) R) :
    Agrees I (Attempt.keepSome f as) (Attempt.keepSome g as) fun bs => ∀ b ∈ bs, R b := by
  refine (forAll h).bind fun bs hbs => pure fun b hb => ?_
  obtain ⟨b?, hmem, rfl⟩ := List.mem_filterMap.mp hb
  exact hbs _ hmem b rfl

end Attempt.Agrees

/-- Where things are while names are looked up, and what names denote. -/
structure Chart where
  shape : List (Path × Bool)
  denotes : TypeContext → String → Option Entity
  charted : Charted shape

/-- Things are where the chart says, the body stands in a context that exists, and all that is remembered
is remembered of such a context and right. -/
structure Chart.Fits (c : Chart) (s : BindState) : Prop where
  shape : s.image.shape = c.shape
  denotes : ∀ ctx name, s.lookupUncached ctx name = c.denotes ctx name
  body : s.body.ctx.Located c.shape
  cache : ∀ x ∈ s.cache, ∃ ctx name, ctx.Located c.shape ∧ x.1 = BindState.cacheKey ctx name ∧
    c.denotes ctx name = some x.2

namespace Chart

variable {c : Chart} {s s' : BindState} {ctx : TypeContext} {name : String}

theorem Fits.keep (h : c.Fits s) (hshape : s'.image.shape = s.image.shape)
    (husings : s'.allUsings = s.allUsings) (hcache : s'.cache = s.cache)
    (hbody : s'.body.ctx.Located c.shape) : c.Fits s' where
  shape := hshape.trans h.shape
  denotes x n := (BindState.lookupUncached_congr hshape husings x n).trans (h.denotes x n)
  body := hbody
  cache := hcache ▸ h.cache

/-- What is remembered under the key of a context that exists is what the name denotes there. -/
theorem Fits.remembers (h : c.Fits s) (hctx : ctx.Located c.shape) {e : Entity}
    (hfound : s.cache.lookup (BindState.cacheKey ctx name) = some e) :
    c.denotes ctx name = some e := by
  obtain ⟨x, hx, hkey, rfl⟩ : ∃ x ∈ s.cache, x.1 = BindState.cacheKey ctx name ∧ x.2 = e := by
    obtain ⟨before, after, hsplit, -⟩ := List.lookup_eq_some_iff.mp hfound
    exact ⟨(BindState.cacheKey ctx name, e), by simp [hsplit], rfl, rfl⟩
  obtain ⟨ctx', name', hctx', hkey', hdenotes⟩ := h.cache x hx
  obtain ⟨rfl, rfl⟩ := hctx.eq_of_cacheKey hctx' c.charted (hkey.symm.trans hkey')
  exact hdenotes

/-- In a context that exists the answer is what the name denotes, and the chart goes on to fit. -/
theorem Fits.lookup (h : c.Fits s) (hctx : ctx.Located c.shape) :
    (Bind.lookupEntity ctx name s).1 = some (c.denotes ctx name) ∧
      c.Fits (Bind.lookupEntity ctx name s).2 := by
  have hdenotes := h.denotes ctx name
  unfold Bind.lookupEntity
  split
  · next e hfound =>
    rw [h.remembers hctx hfound]
    exact ⟨rfl, h⟩
  · split
    · next e hfound =>
      have hright : c.denotes ctx name = some e := hdenotes.symm.trans hfound
      rw [hright]
      refine ⟨rfl, h.shape, h.denotes, h.body, ?_⟩
      exact List.forall_mem_cons.mpr ⟨⟨ctx, name, hctx, rfl, hright⟩, h.cache⟩
    · next hunknown =>
      rw [← hdenotes, hunknown]
      exact ⟨rfl, h⟩

end Chart

/-- Another way to look up names: the same as with the cache where the chart fits, and anything
elsewhere. -/
def NameLookup.Follows (ask : NameLookup) (c : Chart) : Prop :=
  ∀ (s : BindState) (ctx : TypeContext) (name : String), c.Fits s → ctx.Located c.shape →
    ask.find ctx name s = Bind.lookupEntity ctx name s

/-- A name to look up in a context and the state in which that happens. -/
structure Question where
  state : BindState
  ctx : TypeContext
  name : String

namespace Bind

variable {α : Type} {p : NameLookup → Bind α} {s : BindState}

/-- The run asks the question: it goes another way if the answer to this question is another one, while
all other questions are answered as with the cache. -/
def Asks (p : NameLookup → Bind α) (s : BindState) (q : Question) : Prop :=
  ∃ ask : NameLookup, (∀ q' : Question, q' ≠ q →
    ask.find q'.ctx q'.name q'.state = lookupEntity q'.ctx q'.name q'.state) ∧
      p ask s ≠ p cachedLookup s

/-- Looks up every name anew. What is found is remembered all the same, but never used. -/
@[reducible]
def lookupAnew : NameLookup :=
  ⟨fun ctx name s => (some (s.lookupUncached ctx name), (lookupEntity ctx name s).2)⟩

/-- The cache makes no difference to the run: it goes the same way if names are looked up anew, every
question is answered as it is without the cache, and in two contexts with one key every name denotes the
same, whenever it is asked for. -/
structure Transparent (p : NameLookup → Bind α) (s : BindState) : Prop where
  same : p lookupAnew s = p cachedLookup s
  answers : ∀ q, Asks p s q →
    (lookupEntity q.ctx q.name q.state).1 = some (q.state.lookupUncached q.ctx q.name)
  shared : ∀ q q', Asks p s q → Asks p s q' → ∀ name,
    BindState.cacheKey q.ctx name = BindState.cacheKey q'.ctx name →
      q.state.lookupUncached q.ctx name = q'.state.lookupUncached q'.ctx name

/-- The run does the same whatever is answered where the chart does not fit. -/
def GuidedBy (c : Chart) (p : NameLookup → Bind α) (s : BindState) : Prop :=
  ∀ ask : NameLookup, ask.Follows c → p ask s = p cachedLookup s

theorem GuidedBy.asks {c : Chart} (h : GuidedBy c p s) {q : Question} (hq : Asks p s q) :
    c.Fits q.state ∧ q.ctx.Located c.shape := by
  obtain ⟨ask, hask, hdiffers⟩ := hq
  by_contra hnot
  refine hdiffers (h ask fun t ctx name hfits hctx => hask ⟨t, ctx, name⟩ ?_)
  rintro rfl
  exact hnot ⟨hfits, hctx⟩

theorem lookupAnew_follows (c : Chart) : lookupAnew.Follows c := fun s ctx name hfits hctx => by
  refine Prod.ext ?_ rfl
  change some (s.lookupUncached ctx name) = (lookupEntity ctx name s).1
  rw [(hfits.lookup hctx).1, hfits.denotes]

theorem GuidedBy.transparent {c : Chart} (h : GuidedBy c p s) : Transparent p s where
  same := h lookupAnew (lookupAnew_follows c)
  answers q hq := by
    obtain ⟨hfits, hctx⟩ := h.asks hq
    rw [(hfits.lookup hctx).1, hfits.denotes]
  shared q q' hq hq' name hkey := by
    obtain ⟨hfits, hctx⟩ := h.asks hq
    obtain ⟨hfits', hctx'⟩ := h.asks hq'
    rw [hfits.denotes, hfits'.denotes, (hctx.eq_of_cacheKey hctx' c.charted hkey).1]

end Bind

namespace Bind

open Attempt

variable {α β : Type} {c : Chart} {Q : α → Prop}

theorem find_agrees [ask : NameLookup] (hask : ask.Follows c) {ctx : TypeContext}
    (hctx : ctx.Located c.shape) (name : String) :
    Agrees c.Fits (NameLookup.find ctx name) (lookupEntity ctx name) fun _ => True := by
  refine .ofSame (fun s hs => hask s ctx name hs hctx) fun s hs => ?_
  have hfits : c.Fits (lookupEntity ctx name s).2 := (hs.lookup hctx).2
  revert hfits
  rcases lookupEntity ctx name s with ⟨_ | e?, s'⟩
  · exact id
  · exact fun hfits => ⟨hfits, trivial⟩

/-- The step changes nothing but the issues. -/
def Reports (p : Bind α) : Prop := ∀ s : BindState, ∃ log, (p s).2 = { s with issues := log }

namespace Reports

theorem same {p : Bind α} (h : ∀ s, (p s).2 = s) : Reports p := fun s => ⟨s.issues, h s⟩

theorem pure (a : α) : Reports (Pure.pure a) := same fun _ => rfl

theorem fail : Reports (Attempt.fail : Bind α) := same fun _ => rfl

theorem gets (f : BindState → α) : Reports (Attempt.gets f) := same fun _ => rfl

theorem ofOption (a? : Option α) : Reports (Attempt.ofOption a?) := same fun _ => rfl

theorem bind {p : Bind α} {f : α → Bind β} (hp : Reports p) (hf : ∀ a, Reports (f a)) :
    Reports (p >>= f) := by
  intro s
  obtain ⟨log, hlog⟩ := hp s
  change ∃ log', (Attempt.bind p f s).2 = { s with issues := log' }
  unfold Attempt.bind
  revert hlog
  rcases p s with ⟨_ | a, s'⟩
  · exact fun hlog => ⟨log, hlog⟩
  · rintro rfl
    exact hf a _

theorem report (problem : Problem) (span : Span) : Reports (Bind.report problem span) :=
  fun _ => ⟨_, rfl⟩

theorem refuse (problem : Problem) (span : Span) : Reports (Bind.refuse problem span : Bind α) :=
  (report problem span).bind fun _ => fail

theorem forAll {f : α → Bind β} {as : List α} (h : ∀ a ∈ as, Reports (f a)) :
    Reports (Attempt.forAll f as) := by
  induction as with
  | nil => exact pure []
  | cons a as ih =>
    have hoptional : Reports (Attempt.optional (f a)) := fun s => h a List.mem_cons_self s
    refine hoptional.bind fun b? => ?_
    exact (ih fun x hx => h x (List.mem_cons_of_mem _ hx)).bind fun bs => pure _

theorem agrees {p : Bind α} (h : Reports p) :
    Agrees c.Fits p p fun _ => True := by
  refine .refl fun s hs => ?_
  obtain ⟨log, hlog⟩ := h s
  have hfits : c.Fits (p s).2 := by
    rw [hlog]
    exact hs.keep rfl rfl rfl hs.body
  revert hfits
  rcases p s with ⟨_ | a, s'⟩
  · exact id
  · exact fun hfits => ⟨hfits, trivial⟩

end Reports

theorem body_agrees : Agrees c.Fits body body fun b => b.ctx.Located c.shape :=
  .refl (.gets fun _ hs => hs.body)

theorem refuse_agrees (problem : Problem) (span : Span) :
    Agrees c.Fits (refuse problem span : Bind α) (refuse problem span) Q :=
  .refl fun _ hs => hs.keep rfl rfl rfl hs.body

end Bind

end Chunkwise
