import Chunkwise.Proofs.Machine.Run
import Chunkwise.Proofs.Session.History

/-!
Committing a chunk keeps storage typed in both readings, and so does a run of typed code. The
lenient reading holds in every history whose types have what their interfaces ask for. The strict
one also needs that no unit runs once a slot in its code is out of use.
-/
namespace Chunkwise

theorem Value.Belongs.grow {strict : Bool} {im im' : Image} {objects : Nat → Option Path}
    {v : Value} {t : Ty} (h : v.Belongs strict im objects t) (hk : im.Knows t)
    (hg : im.Grows im') : v.Belongs strict im' objects t :=
  h.imp_left fun hv => hv.grow hk hg fun _ _ ho => ho

theorem Object.Ok.grow {strict : Bool} {im im' : Image} {objects : Nat → Option Path} {o : Object}
    (h : o.Ok strict im objects) (hs : im.Sound) (hg : im.Grows im') :
    o.Ok strict im' objects := by
  obtain ⟨d, hd, hi, hsize, hfields⟩ := h
  obtain ⟨d', hd', he⟩ := hg _ d hd
  refine ⟨d', hd', hi.of_erased he, ?_, fun i f v hf hv => ?_⟩
  · rw [TypeDef.fields_of_erased he, hsize]
  · rw [TypeDef.fields_of_erased he] at hf
    have hknows := (hs.sigs _ d hd).fields f (List.mem_of_getElem? hf)
    exact (hfields i f v hf hv).grow hknows hg

namespace Image

variable {im im' : Image}

theorem Covered.before (h : im'.Covered) (hg : im.Grows im') : im.Covered := by
  intro p d hd hi q e hr he m hm
  obtain ⟨d', hd', hed⟩ := hg p d hd
  obtain ⟨e', he', hee⟩ := hg q e he
  obtain ⟨m', hm', hmm⟩ := TypeDef.mem_of_erased (TypeDef.methods_of_erased hee).symm hm
  have himpl := h p d' hd' (hi.of_erased hed) q e' (hg.reaches hr) he' m' hm'
  exact Bind.isImplemented_of_erased hed.symm hmm himpl

end Image

namespace Session

variable {s : Session} {b : BindState} {code : Code} {strict : Bool}

theorem commit_objects (h : b.Delivers s code) :
    (s.commit b).store.objects = s.store.objects := by
  have hheap : (s.commit b).store.heap = s.store.heap := registerAll_heap.trans h.store.heap
  funext id
  simp only [Store.objects, hheap]

theorem commit_ok (hs : s.Valid) (h : b.Delivers s code) (hok : s.store.Ok strict s.image) :
    (s.commit b).store.Ok strict (s.commit b).image := by
  have hgrows := grows_commit h
  have hcommit := Image.grows_commit b.image b.usings b.declared
  have hbound : ∀ (i : Nat) (slot : Slot), b.store.slots[i]? = some slot →
      (strict = true → slot.released = false) →
      slot.value.Belongs strict (s.commit b).image s.store.objects slot.type := by
    intro i slot hi hr
    by_cases hlt : i < s.store.slots.size
    · have hi' := h.store.old i hlt ▸ hi
      exact (hok.slots i slot hi' hr).grow (hs.types i slot hi') hgrows
    · obtain ⟨-, hknows, hvalue⟩ := h.store.new i slot (Nat.le_of_not_lt hlt) hi
      rw [hvalue, ← hcommit.keeps.defaultValue hknows]
      exact .inl (Value.conforms_defaultValue _ _)
  refine ⟨fun i slot hi hr => ?_, fun id o ho => ?_, fun i t hi => ?_⟩
  · rw [commit_objects h]
    rw [commit_slot h] at hi
    split at hi
    · obtain ⟨slot', -, rfl⟩ := Option.map_eq_some_iff.mp hi
      cases strict with
      | true => cases hr rfl
      | false => exact .inr ⟨rfl, rfl⟩
    · exact hbound i slot hi hr
  · rw [commit_objects h]
    have hheap : (s.commit b).store.heap = s.store.heap := registerAll_heap.trans h.store.heap
    rw [hheap] at ho
    exact (hok.heap id o ho).grow hs.sound hgrows
  · have hoffers := (commit_valid hs h).statics i t hi
    cases strict with
    | true => exact hoffers
    | false => exact hoffers.lenient

end Session

namespace History

variable {h : History} {u : CompiledUnit} {strict : Bool}

/-- What a run leaves behind is typed, and so is what it captures. -/
def Sound (h : History) (strict : Bool) (y : Option Ty) (out : Machine.Outcome) : Prop :=
  out.store.Ok strict h.session.image ∧ h.session.store.Later out.store ∧
    Run.Meets strict out.result fun v? => ∀ v, v? = some v → ∃ t, y = some t ∧
      v.Belongs strict h.session.image out.store.objects t

theorem outcome_sound (hv : h.Valid) (hc : h.session.image.Covered)
    (hok : h.session.store.Ok strict h.session.image) {y : Option Ty}
    (hu : u.code.TypedIn h.session strict y) (limits : RunLimits) :
    h.Sound strict y (h.outcome u limits) := by
  obtain ⟨Δ, hcode⟩ := hu
  exact Machine.run_sound rfl hv.session.sound hc rfl rfl hcode hok fun _ _ ho => ho

theorem Reachable.store_ok (hr : h.Reachable) (hc : h.session.image.Covered) :
    h.session.store.Ok false h.session.image := by
  induction hr with
  | start settings => exact Evaluator.ofSettings_store settings false
  | @compile h hr src chunkClass mode ih =>
    rcases compile_cases hr.valid src chunkClass mode with ⟨u, b, -, hdelivers, heq⟩ | ⟨-, heq⟩
    · rw [heq] at hc ⊢
      refine Session.commit_ok hr.valid.session hdelivers (ih ?_)
      exact hc.before (Session.grows_commit hdelivers)
    · rw [heq] at hc ⊢
      exact ih hc
  | @run h hr u hu limits ih =>
    obtain ⟨y, hy⟩ := hr.valid.units u hu
    exact (outcome_sound hr.valid hc (ih hc) hy limits).1

end History

end Chunkwise
