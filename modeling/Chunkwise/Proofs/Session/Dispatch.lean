import Chunkwise.Proofs.Session.Storage

/-!
Whether a type has the members of an interface is checked for the interfaces that it lists, while
conversions also lead on to the interfaces that these list. `Gap` is the difference between the two,
and it is the only reason for which dispatch can fail.
-/
namespace Chunkwise

namespace Image

/-- Objects of the type `p` can pass for the interface `q`, which `p` does not list, and lack its
member `m`. -/
structure Gap (im : Image) (p q : Path) (m : Method) : Prop where
  unlisted : im.implements p q = false
  reached : im.Reaches p q
  objects : ∃ d, im.typeDef? p = some d ∧ d.Instantiable ∧ Bind.isImplemented d m = false
  member : ∃ e, im.typeDef? q = some e ∧ m ∈ e.methods

variable {im : Image}

theorem Sound.isImplemented (hs : im.Sound) {p q : Path} {d e : TypeDef} {m : Method}
    (hd : im.typeDef? p = some d) (hi : d.Instantiable) (hlisted : im.implements p q = true)
    (he : im.typeDef? q = some e) (hm : m ∈ e.methods) : Bind.isImplemented d m = true := by
  obtain ⟨d', hd', hq⟩ := implements_iff.mp hlisted
  obtain rfl : d = d' := by simpa [hd] using hd'
  exact hs.conforming p d hd hi.1 q hq e he m hm

theorem isImplemented_iff_not_gap (hs : im.Sound) {p q : Path} {d e : TypeDef} {m : Method}
    (hd : im.typeDef? p = some d) (hi : d.Instantiable) (hr : im.Reaches p q)
    (he : im.typeDef? q = some e) (hm : m ∈ e.methods) :
    Bind.isImplemented d m = true ↔ ¬ im.Gap p q m := by
  constructor
  · rintro himpl ⟨-, -, ⟨d', hd', -, hlacks⟩, -⟩
    obtain rfl : d = d' := by simpa [hd] using hd'
    rw [himpl] at hlacks
    cases hlacks
  · intro hgap
    cases himpl : Bind.isImplemented d m with
    | true => rfl
    | false =>
      refine absurd ⟨?_, hr, ⟨d, hd, hi, himpl⟩, e, he, hm⟩ hgap
      cases hlisted : im.implements p q with
      | false => rfl
      | true =>
        rw [hs.isImplemented hd hi hlisted he hm] at himpl
        cases himpl

theorem covered_of_no_gap (hs : im.Sound) (h : ∀ p q m, ¬ im.Gap p q m) : im.Covered :=
  fun p _ hd hi q _ hr he m hm => (isImplemented_iff_not_gap hs hd hi hr he hm).mpr (h p q m)

end Image

namespace History

variable {h : History}

/-- In a session without gaps every run finds the methods it calls. -/
theorem Reachable.not_notImplemented (hr : h.Reachable) (hc : h.session.image.Covered)
    {u : CompiledUnit} (hu : u ∈ h.units) (limits : RunLimits) (p : Path) (member : String) :
    (h.outcome u limits).result ≠ .error (.internal (.notImplemented p member)) := by
  obtain ⟨y, hy⟩ := hr.valid.units u hu
  have hsound := (outcome_sound hr.valid hc (hr.store_ok hc) hy limits).2.2
  intro hstop
  rw [hstop] at hsound
  exact hsound

/-- Dispatch from a type to a member of an interface that it can pass for finds a method of the type
that answers for the member, unless there is a gap; and no run fails to find a method in a session
without gaps. -/
theorem Reachable.dispatch_fails_only_at_gaps (hr : h.Reachable) :
    (∀ p d q e m, h.session.image.typeDef? p = some d → d.Instantiable →
      h.session.image.Reaches p q → h.session.image.typeDef? q = some e → m ∈ e.methods →
      ((∃ target, d.implementation? m = some target ∧ d.Answers m target) ↔
        ¬ h.session.image.Gap p q m)) ∧
    ((∀ p q m, ¬ h.session.image.Gap p q m) → ∀ u ∈ h.units, ∀ limits p member,
      (h.outcome u limits).result ≠ .error (.internal (.notImplemented p member))) := by
  have hs := hr.valid.session.sound
  constructor
  · intro p d q e m hd hi hreach he hm
    rw [TypeDef.implementation?_iff (hs.sigs p d hd) hi]
    exact Image.isImplemented_iff_not_gap hs hd hi hreach he hm
  · intro hgap u hu limits p member
    exact hr.not_notImplemented (Image.covered_of_no_gap hs hgap) hu limits p member

/-- A class behind two interfaces of which it lists one. -/
def chained : History := blank.compile
  ⟨"test", "interface A \x7b int F(); \x7d interface B : A \x7b \x7d class C : B \x7b \x7d"⟩
  .declarations .silent

theorem chained_image :
    ((chained.session.image.typeDef? ["C"]).any fun d =>
      (chained.session.image.typeDef? ["A"]).any fun e => e.methods.any fun m =>
        d.hasObjects && !d.isStatic && !d.isAbstract && !Bind.isImplemented d m) = true ∧
    chained.session.image.implements ["C"] ["B"] = true ∧
    chained.session.image.implements ["B"] ["A"] = true ∧
    chained.session.image.implements ["C"] ["A"] = false := by
  decide +kernel

theorem chained_reaches : chained.session.image.Reaches ["C"] ["A"] :=
  .trans (.single chained_image.2.1) (.single chained_image.2.2.1)

/-- The class can pass for the second interface and lacks its member. -/
theorem dispatch_fails_only_at_gaps_chained :
    ∃ d m, chained.session.image.typeDef? ["C"] = some d ∧
      chained.session.image.Gap ["C"] ["A"] m ∧
      ¬ ∃ target, d.implementation? m = some target ∧ d.Answers m target := by
  obtain ⟨d, hd, hlacks⟩ := (Option.any_eq_true _ _).mp chained_image.1
  obtain ⟨e, he, hlacks⟩ := (Option.any_eq_true _ _).mp hlacks
  obtain ⟨m, hm, hlacks⟩ := List.any_eq_true.mp hlacks
  simp only [Bool.and_eq_true, Bool.not_eq_true'] at hlacks
  obtain ⟨⟨⟨ho, hs⟩, ha⟩, himpl⟩ := hlacks
  have hgap : chained.session.image.Gap ["C"] ["A"] m :=
    ⟨chained_image.2.2.2, chained_reaches, ⟨d, hd, ⟨ho, hs, ha⟩, himpl⟩, e, he, hm⟩
  have hreachable : chained.Reachable := .compile (.start _) _ _ _
  have hspec := hreachable.dispatch_fails_only_at_gaps.1 ["C"] d ["A"] e m hd ⟨ho, hs, ha⟩
    chained_reaches he hm
  exact ⟨d, m, hd, hgap, fun hfound => hspec.mp hfound hgap⟩

end History

end Chunkwise
