import Chunkwise.Machine.Run
import Chunkwise.Proofs.Split.Within

/-!
`Margins` surround a state: locals before and after those of the frame, slots behind those of the
store, and output that was written before. Lifted code does in the larger state what the code does
in the smaller one, and the margins stay as they are. `Embeds` is the contract of such a pair.
-/
namespace Chunkwise

open Machine

/-- What surrounds a state. -/
structure Margins where
  front : Array Value
  back : Array Value
  slots : Array Slot
  out : String
  polls : Nat
  /-- Whether the result of the frame counts. -/
  keeps : Bool

namespace Margins

/-- The state with all that surrounds it. -/
def around (g : Margins) (s : RunState) : RunState :=
  ⟨⟨s.store.slots ++ g.slots, s.store.heap⟩, g.out ++ s.out,
    ⟨g.front ++ s.frame.locals ++ g.back, s.frame.thisObject,
      if g.keeps then s.frame.result else none⟩, s.depth, g.polls + s.polls⟩

/-- The margins of a call, which has a frame of its own. -/
def called (g : Margins) : Margins := { g with front := #[], back := #[], keeps := true }

end Margins

/-- What runs leave as it is. -/
structure RunState.Shape where
  locals : Nat
  slots : Nat
  depth : Nat
  self : Option ObjectRef

def RunState.shape (s : RunState) : RunState.Shape :=
  ⟨s.frame.locals.size, s.store.slots.size, s.depth, s.frame.thisObject⟩

/-- The shape inside a call that starts with this frame. -/
def RunState.Shape.inFrame (z : RunState.Shape) (f : Frame) : RunState.Shape :=
  ⟨f.locals.size, z.slots, z.depth, f.thisObject⟩

namespace Run

variable {α β γ δ : Type} {g : Margins} {z : RunState.Shape} {env : Env}

/-- Where `p` ends well with margins around a state, `q` ends alike without them. -/
def Embeds (g : Margins) (z : RunState.Shape) (R : α → β → Prop) (p : Run α) (q : Run β) : Prop :=
  ∀ s, s.shape = z → ∀ a t, p (g.around s) = (.ok a, t) →
    ∃ b s', q s = (.ok b, s') ∧ R a b ∧ t = g.around s' ∧ s'.shape = z

namespace Embeds

variable {R : α → β → Prop} {S : γ → δ → Prop} {p : Run α} {q : Run β}

theorem pure {a : α} {b : β} (h : R a b) : Embeds g z R (Pure.pure a : Run α) (Pure.pure b) := by
  intro s hs a' t hp
  cases hp
  exact ⟨b, s, rfl, h, rfl, hs⟩

theorem bind {f : α → Run γ} {f' : β → Run δ} (hp : Embeds g z R p q)
    (hf : ∀ a b, R a b → Embeds g z S (f a) (f' b)) : Embeds g z S (p >>= f) (q >>= f') := by
  intro s hs c t hrun
  change Run.bind p f (g.around s) = _ at hrun
  unfold Run.bind at hrun
  rcases hpr : p (g.around s) with ⟨e | a, m⟩
  · simp [hpr] at hrun
  · simp only [hpr] at hrun
    obtain ⟨b, m', hq, hab, rfl, hshape⟩ := hp s hs a m hpr
    obtain ⟨d, s', hf', hcd, hstate, hshape'⟩ := hf a b hab m' hshape c t hrun
    refine ⟨d, s', ?_, hcd, hstate, hshape'⟩
    change Run.bind q f' s = _
    unfold Run.bind
    rw [hq]
    exact hf'

theorem bindSame {p q : Run α} {f : α → Run γ} {f' : α → Run δ} (hp : Embeds g z Eq p q)
    (hf : ∀ a, Embeds g z S (f a) (f' a)) : Embeds g z S (p >>= f) (q >>= f') :=
  hp.bind fun a _ hab => hab ▸ hf a

theorem stop {e : Stop} : Embeds g z R (Run.stop e : Run α) q := by
  intro s _ a t hp
  cases hp

theorem ofExcept {r : Except Stop α} : Embeds g z Eq (Run.ofExcept r) (Run.ofExcept r) := by
  intro s hs a t hp
  change (r, g.around s) = _ at hp
  obtain ⟨rfl, rfl⟩ := Prod.mk.inj hp
  exact ⟨a, s, rfl, rfl, rfl, hs⟩

theorem gets {f : RunState → α} {f' : RunState → β}
    (h : ∀ s, s.shape = z → R (f (g.around s)) (f' s)) :
    Embeds g z R (Run.gets f) (Run.gets f') := by
  intro s hs a t hp
  cases hp
  exact ⟨f' s, s, rfl, h s hs, rfl, hs⟩

theorem modify {f f' : RunState → RunState}
    (h : ∀ s, s.shape = z → f (g.around s) = g.around (f' s) ∧ (f' s).shape = z) :
    Embeds g z Eq (Run.modify f) (Run.modify f') := by
  intro s hs a t hp
  cases hp
  exact ⟨(), f' s, rfl, rfl, h s hs⟩

/-- Fewer polls were made without the margins, so an interrupt that has not come yet does not come. -/
theorem poll : Embeds g z Eq (Run.poll env) (Run.poll env) := by
  intro s hs a t hp
  refine ⟨(), { s with polls := s.polls + 1 }, ?_, rfl, ?_, hs⟩
  · unfold Run.poll at hp ⊢
    cases hcancel : env.cancelAfter with
    | none => rfl
    | some k =>
      simp only [hcancel] at hp ⊢
      split at hp
      · cases hp
      · next hk =>
        have hpolls : (g.around s).polls = g.polls + s.polls := rfl
        rw [if_neg (by omega)]
  · unfold Run.poll at hp
    split at hp
    · split at hp
      · cases hp
      · exact (Prod.mk.inj hp).2.symm
    · exact (Prod.mk.inj hp).2.symm

theorem print (text : String) : Embeds g z Eq (Run.print text) (Run.print text) := by
  refine modify fun s hs => ⟨?_, hs⟩
  simp only [Margins.around, String.append_assoc]

theorem inFrame (f : Frame) (h : Embeds g.called (z.inFrame f) R p q) :
    Embeds g z R (Run.inFrame f p) (Run.inFrame f q) := by
  intro s hs a t hrun
  subst hs
  have haround : { g.around s with frame := f } = g.called.around { s with frame := f } := by
    simp [Margins.around, Margins.called]
  rcases hp : p { g.around s with frame := f } with ⟨r, m⟩
  have hboth : (r, { m with frame := (g.around s).frame }) = (.ok a, t) := by
    rw [← hrun]
    unfold Run.inFrame
    dsimp only
    rw [hp]
  obtain ⟨rfl, rfl⟩ := Prod.mk.inj hboth
  rw [haround] at hp
  obtain ⟨b, m', hq, hab, rfl, hshape⟩ := h { s with frame := f } rfl a m hp
  refine ⟨b, { m' with frame := s.frame }, ?_, hab, ?_, ?_⟩
  · unfold Run.inFrame
    dsimp only
    rw [hq]
  · simp [Margins.around, Margins.called]
  · have hslots := congrArg RunState.Shape.slots hshape
    have hdepth := congrArg RunState.Shape.depth hshape
    exact congrArg₂ (fun a b => (⟨s.frame.locals.size, a, b, s.frame.thisObject⟩ : RunState.Shape))
      hslots hdepth

theorem deeper (h : Embeds g { z with depth := z.depth + 1 } R p q) :
    Embeds g z R (Run.deeper env p) (Run.deeper env q) := by
  refine bind poll fun _ _ _ s hs a t hrun => ?_
  subst hs
  have hsame : (g.around s).depth = s.depth := rfl
  by_cases hdepth : env.maxDepth ≤ s.depth
  · simp only [hsame, hdepth, if_true] at hrun
    cases (Prod.mk.inj hrun).1
  · simp only [hsame, hdepth, if_false] at hrun ⊢
    rcases hp : p { g.around s with depth := s.depth + 1 } with ⟨r, m⟩
    rw [hp] at hrun
    obtain ⟨rfl, rfl⟩ := Prod.mk.inj hrun
    have haround : { g.around s with depth := s.depth + 1 } = g.around { s with depth := s.depth + 1 } :=
      rfl
    rw [haround] at hp
    obtain ⟨b, m', hq, hab, rfl, hshape⟩ := h { s with depth := s.depth + 1 } rfl a m hp
    refine ⟨b, { m' with depth := m'.depth - 1 }, by rw [hq], hab, rfl, ?_⟩
    have hlater : m'.depth - 1 = s.depth := by
      rw [show m'.depth = s.depth + 1 from congrArg RunState.Shape.depth hshape]
      rfl
    have hlocals := congrArg RunState.Shape.locals hshape
    have hslots := congrArg RunState.Shape.slots hshape
    have hself := congrArg RunState.Shape.self hshape
    change (⟨_, _, m'.depth - 1, _⟩ : RunState.Shape) = _
    rw [hlater]
    exact congr (congrArg₂ (fun a b c => (⟨a, b, s.depth, c⟩ : RunState.Shape)) hlocals hslots) hself

end Embeds

end Run

section Arrays

variable {α : Type} (xs front back : Array α) {i : Nat} (f : α → α)

theorem getElem?_margins (h : i < xs.size) :
    (front ++ xs ++ back)[front.size + i]? = xs[i]? := by
  rw [Array.getElem?_append_left (by simp; omega), Array.getElem?_append_right (by omega)]
  congr 1
  omega

theorem modify_margins (h : i < xs.size) :
    (front ++ xs ++ back).modify (front.size + i) f = front ++ xs.modify i f ++ back := by
  apply Array.ext_getElem?
  intro j
  simp only [Array.getElem?_modify, Array.getElem?_append, Array.size_append, Array.size_modify]
  grind

end Arrays

namespace Machine

open Run

variable {env : Env} {calls : Calls} {limit : Nat} {g : Margins} {z : RunState.Shape}

def Location.lift (k : Nat) : Location → Location
  | .frame i => .frame (k + i)
  | .static slot => .static slot
  | .field o i => .field o i

def Location.Within (n m : Nat) : Location → Prop
  | .frame i => i < n
  | .static slot => slot < m
  | .field _ _ => True

/-- A location within bounds and the same location behind `k` other locals. -/
def Location.Lifted (k n m : Nat) (l l' : Location) : Prop := l = l'.lift k ∧ l'.Within n m

theorem load_embeds {l l' : Location} (h : l.Lifted g.front.size z.locals z.slots l') :
    Embeds g z Eq (load l) (load l') := by
  obtain ⟨rfl, hwithin⟩ := h
  refine Embeds.gets fun s hs => ?_
  subst hs
  cases l' with
  | frame i =>
    change ((g.front ++ s.frame.locals ++ g.back)[g.front.size + i]?).getD .null = _
    rw [getElem?_margins _ _ _ hwithin]
  | static slot =>
    have hslot : (s.store.slots ++ g.slots)[slot]? = s.store.slots[slot]? :=
      Array.getElem?_append_left hwithin
    simp only [Location.lift, Store.readSlot, Margins.around]
    rw [hslot]
  | field o i => rfl

theorem save_embeds {l l' : Location} (h : l.Lifted g.front.size z.locals z.slots l') (v : Value) :
    Embeds g z Eq (save l v) (save l' v) := by
  obtain ⟨rfl, hwithin⟩ := h
  refine Embeds.modify fun s hs => ?_
  subst hs
  cases l' with
  | frame i =>
    refine ⟨?_, by simp [RunState.shape]⟩
    simp only [Location.lift, Margins.around, modify_margins _ _ _ _ hwithin]
  | static slot =>
    refine ⟨?_, by simp [RunState.shape, Store.writeSlot]⟩
    have hslot := modify_margins s.store.slots #[] g.slots (fun x => { x with value := v }) hwithin
    simp only [Array.empty_append, List.size_toArray, List.length_nil, Nat.zero_add] at hslot
    simp only [Location.lift, Margins.around, Store.writeSlot, hslot]
  | field o i => exact ⟨rfl, rfl⟩

end Machine

/-- The code of a method stays within its own frame and the first `m` slots. -/
def Method.Within (m : Nat) (x : Method) : Prop :=
  ∀ code, x.body = .code code → ∀ n, code.locals ≤ n → BoundStmt.AllWithin n m true code.body

/-- All code of a type stays within the first `m` slots. -/
structure TypeDef.Within (m : Nat) (d : TypeDef) : Prop where
  methods : ∀ x ∈ d.methods, x.Within m
  constructors : ∀ x ∈ d.constructors, x.Within m
  inits : ∀ x ∈ d.inits, x.2.Within 0 m

def Image.Within (im : Image) (m : Nat) : Prop := ∀ p d, im.typeDef? p = some d → d.Within m

theorem Method.BodyOk.within {im : Image} {self : Option Path} {x : Method} {m : Nat}
    (h : x.BodyOk im self) (hslots : SlotsBelow im.StaticSlot m) : x.Within m := by
  intro code hcode n hn
  unfold Method.BodyOk at h
  rw [hcode] at h
  obtain ⟨hparams, -, Δ, hbody⟩ := h
  have hΓ : (Locals.ofParams x.paramTypes).Below n :=
    Locals.below_ofParams (Nat.le_trans hparams hn)
  exact (hbody.within hn hslots (fun _ _ => rfl) hΓ).1

theorem Image.Sound.within {im : Image} {m : Nat} (h : im.Sound)
    (hslots : SlotsBelow im.StaticSlot m) : im.Within m := by
  intro p d hd
  have hbodies := h.bodies p d hd
  refine ⟨fun x hx => (hbodies.methods x hx).within hslots,
    fun x hx => (hbodies.constructors x hx).within hslots, fun x hx => ?_⟩
  obtain ⟨f, -, s, hs, -⟩ := hbodies.inits x hx
  exact hs.within Locals.below_none hslots

theorem Builtin.helpers_within (m : Nat) : ∀ x ∈ Builtin.helpers, x.Within m := by
  intro x hx code hcode
  obtain rfl := List.mem_singleton.mp hx
  cases hcode

end Chunkwise
