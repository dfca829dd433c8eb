import Chunkwise.Machine.Eval
import Chunkwise.Proofs.Machine.Store

/-!
`Sound` is the contract of typed code: from a state that fits the typing context it leads to such a
state and to a value with the wanted property, or it stops in one of the expected ways. The
property may speak of the store, and the contract holds from every later store on, so that a value
computed first is still one of its type when the next expression has been evaluated.
-/
namespace Chunkwise

/-- The ways in which typed code may stop. In the strict reading it meets no defect at all, and in
the lenient one it still finds every method it calls. -/
def Stop.Expected (strict : Bool) : Stop → Prop
  | .internal (.notImplemented _ _) => False
  | .internal _ => strict = false
  | _ => True

/-- A state that fits a typing context. -/
structure TypingContext.Holds (strict : Bool) (c : TypingContext) (s : RunState) : Prop where
  store : s.store.Ok strict c.image
  slots : ∀ i t, c.slots i t → s.store.Offers strict i t
  locals : ∀ i t, c.locals i = some t → ∃ v, s.frame.locals[i]? = some v ∧
    v.Belongs strict c.image s.store.objects t
  self : ∀ p, c.self = some p → ∃ o, s.frame.thisObject = some o ∧ o.type = p ∧
    s.store.objects o.id = some p

/-- What the evaluation of an expression leaves as it is. -/
structure RunState.Steady (s s' : RunState) : Prop where
  store : s.store.Later s'.store
  size : s'.frame.locals.size = s.frame.locals.size
  self : s'.frame.thisObject = s.frame.thisObject
  result : s'.frame.result = s.frame.result

namespace RunState.Steady

theorem refl (s : RunState) : s.Steady s := ⟨.refl _, rfl, rfl, rfl⟩

theorem trans {a b c : RunState} (h : a.Steady b) (h' : b.Steady c) : a.Steady c :=
  ⟨h.store.trans h'.store, h'.size.trans h.size, h'.self.trans h.self, h'.result.trans h.result⟩

end RunState.Steady

theorem TypingContext.Holds.later {strict : Bool} {c : TypingContext} {s s' : RunState}
    (h : c.Holds strict s) (hl : s.store.Later s'.store) (ho : s'.store.Ok strict c.image)
    (hf : s'.frame = s.frame) : c.Holds strict s' where
  store := ho
  slots i t hi := (h.slots i t hi).later hl
  locals i t hi := by
    obtain ⟨v, hv, hb⟩ := h.locals i t hi
    exact ⟨v, hf ▸ hv, hb.later hl⟩
  self p hp := by
    obtain ⟨o, hthis, ht, hid⟩ := h.self p hp
    exact ⟨o, hf ▸ hthis, ht, hl.objects _ _ hid⟩

namespace Run

variable {α β : Type} {strict : Bool} {c : TypingContext} {im : Image} {st : Store}

/-- The contract of an operation without effects. -/
def Meets (strict : Bool) (r : Except Stop α) (Q : α → Prop) : Prop :=
  match r with
  | .ok a => Q a
  | .error e => e.Expected strict

def Sound (strict : Bool) (c : TypingContext) (st : Store) (p : Run α) (Q : α → Store → Prop) :
    Prop :=
  ∀ s, c.Holds strict s → st.Later s.store → match p s with
    | (.ok a, s') => c.Holds strict s' ∧ s.Steady s' ∧ Q a s'.store
    | (.error e, s') => e.Expected strict ∧ s'.store.Ok strict c.image ∧ s.store.Later s'.store

/-- The contract of a call, which leaves the frame of the caller alone. -/
def SoundCall (strict : Bool) (im : Image) (st : Store) (p : Run α) (Q : α → Store → Prop) : Prop :=
  ∀ s, s.store.Ok strict im → st.Later s.store → match p s with
    | (.ok a, s') => s'.store.Ok strict im ∧ s.store.Later s'.store ∧ s'.frame = s.frame ∧
        Q a s'.store
    | (.error e, s') => e.Expected strict ∧ s'.store.Ok strict im ∧ s.store.Later s'.store

theorem SoundCall.sound {p : Run α} {Q : α → Store → Prop} (h : SoundCall strict c.image st p Q) :
    Sound strict c st p Q := by
  intro s hs hl
  have hp := h s hs.store hl
  revert hp
  rcases p s with ⟨_ | a, s'⟩
  · exact id
  · rintro ⟨hok, hlater, hf, hq⟩
    exact ⟨hs.later hlater hok hf, ⟨hlater, by rw [hf], by rw [hf], by rw [hf]⟩, hq⟩

namespace Sound

variable {p : Run α} {Q Q' : α → Store → Prop} {R : β → Store → Prop}

theorem mono (h : Sound strict c st p Q) (hq : ∀ a st', st.Later st' → Q a st' → Q' a st') :
    Sound strict c st p Q' := by
  intro s hs hl
  have hp := h s hs hl
  revert hp
  rcases p s with ⟨_ | a, s'⟩
  · exact id
  · exact fun ⟨hs', hst, ha⟩ => ⟨hs', hst, hq a _ (hl.trans hst.store) ha⟩

theorem pure {a : α} (h : ∀ st', st.Later st' → Q a st') :
    Sound strict c st (Pure.pure a : Run α) Q := fun s hs hl => ⟨hs, .refl s, h _ hl⟩

theorem bind {f : α → Run β} (hp : Sound strict c st p Q)
    (hf : ∀ a st', st.Later st' → Q a st' → Sound strict c st' (f a) R) :
    Sound strict c st (p >>= f) R := by
  intro s hs hl
  have h := hp s hs hl
  change match Run.bind p f s with
    | (.ok a, s') => c.Holds strict s' ∧ s.Steady s' ∧ R a s'.store
    | (.error e, s') => e.Expected strict ∧ s'.store.Ok strict c.image ∧ s.store.Later s'.store
  unfold Run.bind
  revert h
  rcases p s with ⟨_ | a, s'⟩
  · exact id
  · rintro ⟨hs', hst, ha⟩
    have h' := hf a s'.store (hl.trans hst.store) ha s' hs' (.refl _)
    revert h'
    simp only
    rcases f a s' with ⟨_ | b, s''⟩
    · exact fun ⟨he, hok, hl'⟩ => ⟨he, hok, hst.store.trans hl'⟩
    · exact fun ⟨hs'', hst', hb⟩ => ⟨hs'', hst.trans hst', hb⟩

theorem ofExcept {r : Except Stop α}
    (h : ∀ st', st.Later st' → Meets strict r fun a => Q a st') :
    Sound strict c st (Run.ofExcept r) Q := by
  intro s hs hl
  have hr := h _ hl
  cases r with
  | ok a => exact ⟨hs, .refl s, hr⟩
  | error e => exact ⟨hr, hs.store, .refl _⟩

theorem gets {f : RunState → α}
    (h : ∀ s, c.Holds strict s → st.Later s.store → Q (f s) s.store) :
    Sound strict c st (Run.gets f) Q := fun s hs hl => ⟨hs, .refl s, h s hs hl⟩

theorem modify {f : RunState → RunState} {Q : Unit → Store → Prop}
    (h : ∀ s, c.Holds strict s → st.Later s.store →
      c.Holds strict (f s) ∧ s.Steady (f s) ∧ Q () (f s).store) :
    Sound strict c st (Run.modify f) Q := fun s hs hl => h s hs hl

theorem fromStore (h : ∀ st', st.Later st' → st'.Ok strict c.image → Sound strict c st' p Q) :
    Sound strict c st p Q := fun s hs hl => h s.store hl hs.store s hs (.refl _)

end Sound

end Run

end Chunkwise
