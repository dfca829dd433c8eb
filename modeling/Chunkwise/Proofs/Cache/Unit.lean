import Chunkwise.Proofs.Binder.Stages
import Chunkwise.Proofs.Cache.Declare
import Chunkwise.Proofs.Cache.Member

/-!
No name is looked up before the places of a chunk and its directives are settled. From there on the chart of
that moment fits to the end, so all lookups of a chunk are transparent, also if it has problems.
-/
namespace Chunkwise

open Attempt

def Chart.ofState (s : BindState) (h : Charted s.image.shape) : Chart :=
  ⟨s.image.shape, s.lookupUncached, h⟩

theorem Chart.ofState_fits {s : BindState} (h : Charted s.image.shape) (hcache : s.cache = [])
    (hbody : s.body = .host) : (Chart.ofState s h).Fits s where
  shape := rfl
  denotes _ _ := rfl
  body := by
    rw [hbody]
    exact TypeContext.located_top
  cache := by simp [hcache]

theorem Image.Places.charted {old im : Image} {types : List Path} (h : old.Places im types)
    (hold : Charted old.shape) : Charted im.shape := by
  obtain ⟨new, hshape, -, hnew⟩ := h.added
  refine ⟨h.distinct, fun x hx n hn => ?_⟩
  rw [hshape] at hx
  rcases List.mem_append.mp hx with hx | hx
  · exact hold.segments x hx n hn
  · obtain ⟨parent, name, hpath, hopen, hname⟩ := hnew x hx
    rw [hpath] at hn
    rcases List.mem_append.mp hn with hn | hn
    · exact hopen.segments n hn
    · rwa [List.mem_singleton.mp hn]

namespace Bind

variable {s : BindState}

theorem bindUsings_keeps (us : List UsingDirective) (im : Image) (b : BodyContext) :
    Yields (fun s => s.image = im ∧ s.cache = [] ∧ s.body = b) (bindUsings us) fun _ => True := by
  have htarget : ∀ u, Yields (fun s => s.image = im ∧ s.cache = [] ∧ s.body = b) (usingTarget u)
      fun _ => True := by
    intro u
    refine (Yields.gets (Q := fun _ => True) fun _ _ => trivial).bind fun im _ => ?_
    split
    · exact .pure trivial
    · split
      · exact .pure trivial
      · exact fun _ hs => hs
    · exact fun _ hs => hs
  refine (Yields.forAll (Q := fun _ _ => True) fun u _ => (htarget u).bind fun target _ => ?_).bind
    fun _ _ => .pure trivial
  cases u.aliasName with
  | none => exact .modify fun _ hs => hs
  | some name =>
    refine (Yields.gets (Q := fun _ => True) fun _ _ => trivial).bind fun taken _ => ?_
    cases taken with
    | true => exact fun _ hs => hs
    | false => exact .modify fun _ hs => hs

theorem stopOnErrors_reports : Reports stopOnErrors :=
  (Reports.gets _).bind fun any => by
    cases any with
    | true => exact .fail
    | false => exact .pure ()

theorem statementUnit_guided (unit : StatementUnit) (h : Charted s.image.shape) (hcache : s.cache = [])
    (hbody : s.body = .host) :
    GuidedBy (.ofState s h) (fun ask => @statementUnit ask unit) s := by
  intro ask hask
  have hagrees : Agrees (Chart.ofState s h).Fits (@statementUnit ask unit)
      (@statementUnit cachedLookup unit) fun _ => True := by
    refine (setBody_agrees TypeContext.located_top).bind fun _ _ => ?_
    refine (hostStmts_agrees hask unit.stmts).bind fun code _ => ?_
    exact stopOnErrors_reports.agrees.bind fun _ _ => body_agrees.bind fun _ _ => .pure trivial
  exact hagrees.same (Chart.ofState_fits h hcache hbody)

theorem stages_guided {ds : List DeclaredType} (h : Charted s.image.shape) (hcache : s.cache = [])
    (hbody : s.body = .host) (hds : ∀ d ∈ ds, d.inside.Located s.image.shape) :
    GuidedBy (.ofState s h) (fun ask => do
      let populated ← @populateTypes ask ds
      stopOnErrors
      let code ← @bindAllBodies ask populated
      stopOnErrors
      return Code.mk code 0) s := by
  intro ask hask
  refine Agrees.same (Q := fun _ => True) ?_ (Chart.ofState_fits h hcache hbody)
  refine (populateTypes_agrees hask hds).bind fun ps hps => ?_
  refine stopOnErrors_reports.agrees.bind fun _ _ => ?_
  refine (bindAllBodies_agrees hask hps).bind fun code _ => ?_
  exact stopOnErrors_reports.agrees.bind fun _ _ => .pure trivial

theorem declarationUnit_guided {unit : DeclarationUnit} (hnamed : unit.Named)
    (h : Charted s.image.shape) (hroot : s.image.Open []) (hdeclared : s.declared = [])
    (hcache : s.cache = []) (hbody : s.body = .host) :
    ∃ c, GuidedBy c (fun ask => @declarationUnit ask unit) s := by
  have hmembers : ∀ n ∈ NamespaceMember.namesAll unit.members, IsSegment n :=
    fun n hn => hnamed.segments n (List.mem_append_right _ hn)
  -- the first stage never gives up
  obtain ⟨ds, s₁, hrun₁, hexpands, hds⟩ :=
    (declareMembers_surveys unit.members [] s TypeContext.located_top).exists_run rfl
  have hstart : Placed s.image s := by
    rw [Placed, hdeclared]
    exact .refl h.distinct
  have hplaced := Triple.of_run (declareMembers_placed hroot unit.members hroot hmembers) hstart hrun₁
  have hcharted : Charted s₁.image.shape := hplaced.1.charted h
  -- the directives leave places alone
  obtain ⟨himage, hcache₂, hbody₂⟩ := (bindUsings_keeps unit.usings s₁.image .host).keeps (s := s₁)
    ⟨rfl, hexpands.cache.trans hcache, hexpands.body.trans hbody⟩
  have hcharted₂ : Charted (bindUsings unit.usings s₁).2.image.shape := himage ▸ hcharted
  have hds₂ : ∀ d ∈ ds, d.inside.Located (bindUsings unit.usings s₁).2.image.shape := himage ▸ hds
  refine ⟨.ofState _ hcharted₂, fun ask hask => ?_⟩
  refine bind_congr_run fun ds' s₁' hdeclare => ?_
  obtain ⟨rfl, rfl⟩ : ds = ds' ∧ s₁ = s₁' := by simpa [hrun₁] using hdeclare
  refine bind_congr_run fun _ s₁' hstop => ?_
  obtain ⟨rfl, -⟩ := clean_of_stopOnErrors hstop
  refine bind_congr_run fun _ s₂ husings => ?_
  obtain rfl : (bindUsings unit.usings s₁').2 = s₂ := congrArg Prod.snd husings
  exact stages_guided hcharted₂ hcache₂ hbody₂ hds₂ ask hask

end Bind

end Chunkwise
