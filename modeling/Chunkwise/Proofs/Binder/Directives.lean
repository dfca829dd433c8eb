import Chunkwise.Proofs.Binder.Populate
import Chunkwise.Proofs.Parser.Names

namespace Chunkwise

open Attempt

/-- The target is what its text denotes, and only an alias stands for a type. -/
structure Using.Resolved (im : Image) (u : Using) : Prop where
  space : u.aliasName = none → ∃ p, u.target = .space p
  target : im.lookup (Path.ofText u.targetName) = some u.target

/-- No alias stands for two targets. -/
def AliasesAgree (us : List Using) : Prop :=
  ∀ u ∈ us, ∀ v ∈ us, ∀ name, u.aliasName = some name → v.aliasName = some name →
    u.targetName = v.targetName

theorem AliasesAgree.concat {us : List Using} (h : AliasesAgree us) {u : Using}
    (hu : ∀ name, u.aliasName = some name → ∀ v ∈ us, v.aliasName = some name →
      v.targetName = u.targetName) : AliasesAgree (us ++ [u]) := by
  intro v hv w hw name hvn hwn
  rcases List.mem_append.mp hv with hv | hv
  · rcases List.mem_append.mp hw with hw | hw
    · exact h v hv w hw name hvn hwn
    · rw [List.mem_singleton.mp hw] at hwn ⊢
      exact hu name hwn v hv hvn
  · rw [List.mem_singleton.mp hv] at hvn ⊢
    rcases List.mem_append.mp hw with hw | hw
    · exact (hu name hvn w hw hwn).symm
    · rw [List.mem_singleton.mp hw]

/-- Directives are added to the state and nothing else matters. -/
structure BindState.Directs (s₀ s : BindState) : Prop where
  image : s.image = s₀.image
  declared : s.declared = s₀.declared
  resolved : ∀ u ∈ s.usings, u.Resolved s.image
  agree : AliasesAgree s.allUsings

namespace Bind

variable {s₀ : BindState}

/-- Giving up keeps the directives found so far. -/
theorem refuse_directs {α : Type} {Q : α → BindState → Prop} (p : Problem) (span : Span) :
    Triple s₀.Directs (refuse p span : Bind α) Q s₀.Directs :=
  fun _ h => ⟨h.image, h.declared, h.resolved, h.agree⟩

theorem usingTarget_directs (u : UsingDirective) (hnames : ∀ n ∈ u.target.segments, IsSegment n)
    (hne : u.target.segments ≠ []) : Yields s₀.Directs (usingTarget u)
      fun e => Using.Resolved s₀.image ⟨u.aliasName.map Ident.name, e, u.target.text⟩ := by
  have htext : Path.ofText u.target.text = u.target.segments := Path.ofText_text hne hnames
  refine Yields.bind (Q := fun im => im = s₀.image) (Yields.gets fun s hs => hs.image) fun im him => ?_
  subst him
  split
  · next path hl =>
    exact Yields.pure ⟨fun _ => ⟨path, rfl⟩, by rw [htext, hl]⟩
  · next path hl =>
    split
    · next halias =>
      refine Yields.pure ⟨fun hnone => ?_, by rw [htext, hl]⟩
      obtain ⟨id, hid⟩ := Option.isSome_iff_exists.mp halias
      simp [hid] at hnone
    · exact refuse_directs _ _
  · exact refuse_directs _ _

/-- A directive is added unless its alias stands for something else. -/
theorem addDirective_directs {v : Using} (hv : v.Resolved s₀.image) :
    Triple (fun s => s₀.Directs s ∧ ∀ name, v.aliasName = some name → ∀ w ∈ s.allUsings,
        w.aliasName = some name → w.targetName = v.targetName)
      (Attempt.modify fun s => { s with usings := s.usings ++ [v] })
      (fun _ s => s₀.Directs s ∧ True) s₀.Directs := by
  refine Triple.modify fun s hs => ⟨⟨hs.1.image, hs.1.declared, fun u hu => ?_, ?_⟩, trivial⟩
  · rcases List.mem_append.mp hu with hu | hu
    · exact hs.1.resolved u hu
    · rw [List.mem_singleton.mp hu, hs.1.image]
      exact hv
  · have hagree := hs.1.agree.concat hs.2
    simpa [BindState.allUsings] using hagree

theorem bindUsing_directs (u : UsingDirective) (hnames : ∀ n ∈ u.target.segments, IsSegment n)
    (hne : u.target.segments ≠ []) : Yields s₀.Directs (bindUsing u) fun _ => True := by
  unfold bindUsing
  refine (usingTarget_directs u hnames hne).bind fun e he => ?_
  have hadd := addDirective_directs he
  cases halias : u.aliasName with
  | none =>
    rw [halias] at hadd
    exact Triple.mono hadd (fun s hs => ⟨hs, nofun⟩) (fun _ _ h => h) fun _ h => h
  | some id =>
    rw [halias] at hadd
    refine Triple.bind (Q := fun taken s => s₀.Directs s ∧ taken = s.allUsings.any fun v =>
      v.aliasName == some id.name && v.targetName != u.target.text)
      (Triple.gets fun s hs => ⟨hs, rfl⟩) fun taken => ?_
    cases taken with
    | true =>
      have hrefuse : Triple s₀.Directs (refuse (.usingAliasClash id.name) u.span : Bind Unit)
          (fun _ _ => False) s₀.Directs := refuse_directs _ _
      exact Triple.bind (hrefuse.mono (fun _ h => h.1) (fun _ _ h => h) fun _ h => h)
        fun _ _ hnever => hnever.elim
    | false =>
      refine Triple.mono hadd (fun s hs => ⟨hs.1, fun name hname w hw hwn => ?_⟩) (fun _ _ h => h)
        fun _ h => h
      have hfree := List.any_eq_false.mp hs.2.symm w hw
      have hid : name = id.name := by simpa using hname.symm
      simpa [hwn, hid] using hfree

theorem bindUsings_directs {us : List UsingDirective}
    (hnames : ∀ u ∈ us, ∀ n ∈ u.target.segments, IsSegment n)
    (hne : ∀ u ∈ us, u.target.segments ≠ []) : Yields s₀.Directs (bindUsings us) fun _ => True := by
  unfold bindUsings
  refine Yields.bind (Yields.forAll fun u hu => bindUsing_directs u (hnames u hu) (hne u hu))
    fun _ _ => Yields.pure trivial

end Bind

end Chunkwise
