import Chunkwise.Diagnostic.Log
import Chunkwise.Proofs.Extent.Tree

/-!
A log stands for the stream of everything that was ever pushed into it: it keeps the first entries and
knows how many there are. Pushing, appending and merging are operations on streams, though a log that is
full has lost most of its own.
-/
namespace Chunkwise

namespace Log

variable {α : Type}

def ofStream (as : List α) : Log α := ⟨as.take maxErrors, as.length⟩

theorem ofStream_push (as : List α) (a : α) : (ofStream as).push a = ofStream (as ++ [a]) := by
  by_cases hroom : as.length < maxErrors
  · have hkept : as.take maxErrors = as := List.take_of_length_le hroom.le
    have hlength : (as ++ [a]).length ≤ maxErrors := by
      rw [List.length_append, List.length_singleton]
      omega
    have hmore : (as ++ [a]).take maxErrors = as ++ [a] := List.take_of_length_le hlength
    simp [ofStream, push, hkept, hmore, hroom]
  · have hfull : (as.take maxErrors).length = maxErrors := List.length_take_of_le (by omega)
    have hsame : (as ++ [a]).take maxErrors = as.take maxErrors :=
      List.take_append_of_le_length (by omega)
    simp [ofStream, push, hfull, hsame]

theorem ofStream_pushAll (as bs : List α) : (ofStream as).pushAll bs = ofStream (as ++ bs) := by
  induction bs generalizing as with
  | nil => simp [pushAll]
  | cons b bs ih =>
    have hnext := ih (as ++ [b])
    simp only [pushAll, List.foldl_cons, ofStream_push] at hnext ⊢
    simp [hnext]

theorem ofStream_append (as bs : List α) :
    (ofStream as).append (ofStream bs) = ofStream (as ++ bs) := by
  have hstored : (as ++ bs.take maxErrors).take maxErrors = (as ++ bs).take maxErrors := by
    rw [List.take_append, List.take_append, List.take_take]
    congr 2
    omega
  have htotal : (as ++ bs.take maxErrors).length + (bs.length - (bs.take maxErrors).length) =
      (as ++ bs).length := by
    simp only [List.length_append, List.length_take]
    omega
  have hpushed := ofStream_pushAll as (bs.take maxErrors)
  simp only [append, dropped, ofStream] at hpushed ⊢
  simp only [hpushed, hstored, htotal]

theorem ofStream_stored_length (as : List α) :
    (ofStream as).stored.length = min maxErrors (ofStream as).total := by
  simp [ofStream]

end Log

/-- A way to put diagnostics together. -/
inductive Collection where
  | empty
  | error (c : Collection) (d : Diagnostic)
  | warning (c : Collection) (d : Diagnostic)
  /-- The second collection comes after the first. -/
  | joined (c c' : Collection)

namespace Collection

def diagnostics : Collection → Diagnostics
  | empty => .empty
  | error c d => c.diagnostics.pushError d
  | warning c d => c.diagnostics.pushWarning d
  | joined c c' => c.diagnostics.extend c'.diagnostics

/-- All errors that were ever pushed, in order. -/
def errors : Collection → List Diagnostic
  | empty => []
  | error c d => c.errors ++ [d]
  | warning c _ => c.errors
  | joined c c' => c.errors ++ c'.errors

theorem diagnostics_errors (c : Collection) : c.diagnostics.errors = Log.ofStream c.errors := by
  induction c with
  | empty => rfl
  | error c d ih => simp [diagnostics, errors, Diagnostics.pushError, ih, Log.ofStream_push]
  | warning c d ih => simp [diagnostics, errors, Diagnostics.pushWarning, ih]
  | joined c c' ih ih' => simp [diagnostics, errors, Diagnostics.extend, ih, ih', Log.ofStream_append]

theorem extend_errors (c c' : Collection) :
    (c.diagnostics.extend c'.diagnostics).errors = Log.ofStream (c.errors ++ c'.errors) :=
  (joined c c').diagnostics_errors

theorem extend_assoc (a b c : Collection) :
    (a.diagnostics.extend b.diagnostics).extend c.diagnostics =
      a.diagnostics.extend (b.diagnostics.extend c.diagnostics) := by
  have herrors : (((a.joined b).joined c).diagnostics).errors =
      ((a.joined (b.joined c)).diagnostics).errors := by
    simp [diagnostics_errors, errors]
  have hwarnings : (((a.joined b).joined c).diagnostics).warnings =
      ((a.joined (b.joined c)).diagnostics).warnings := List.append_assoc ..
  exact congrArg₂ Diagnostics.mk herrors hwarnings

theorem isPartialInput_eq (c : Collection) :
    c.diagnostics.isPartialInput = c.errors.head?.any Diagnostic.isUnexpectedEnd := by
  have hfirst : c.diagnostics.first? = c.errors.head? := by
    simp [Diagnostics.first?, diagnostics_errors, Log.ofStream, maxErrors, List.head?_take]
  unfold Diagnostics.isPartialInput
  rw [hfirst]
  cases c.errors.head? <;> rfl

end Collection

/-- The list is sorted by start position, and diagnostics that start together keep their order. -/
structure InSourceOrder (ds sorted : List Diagnostic) : Prop where
  perm : sorted.Perm ds
  ordered : sorted.Pairwise fun a b => a.span.first ≤ b.span.first
  stable : ∀ place, sorted.filter (·.span.first = place) = ds.filter (·.span.first = place)

namespace Diagnostics

theorem startsBefore_iff (a b : Diagnostic) : startsBefore a b = true ↔ a.span.first ≤ b.span.first :=
  Span.posLE_iff ..

theorem startsBefore_trans (a b c : Diagnostic) (hab : startsBefore a b = true)
    (hbc : startsBefore b c = true) : startsBefore a c = true := by
  rw [startsBefore_iff] at *
  exact hab.trans hbc

theorem startsBefore_total (a b : Diagnostic) : (startsBefore a b || startsBefore b a) = true := by
  rw [Bool.or_eq_true, startsBefore_iff, startsBefore_iff]
  exact le_total _ _

end Diagnostics

namespace InSourceOrder

open Diagnostics

theorem mergeSort (ds : List Diagnostic) : InSourceOrder ds (ds.mergeSort startsBefore) where
  perm := List.mergeSort_perm ..
  ordered := by
    have hsorted := List.pairwise_mergeSort startsBefore_trans startsBefore_total ds
    exact hsorted.imp fun h => (startsBefore_iff _ _).mp h
  stable place := by
    -- What starts at one place is sorted already, so it is kept as it stands.
    have htogether : (ds.filter (·.span.first = place)).Pairwise fun a b => startsBefore a b = true := by
      refine List.pairwise_of_forall_mem_list fun a ha b hb => ?_
      have hplaces : a.span.first = place ∧ b.span.first = place := by simp_all
      exact (startsBefore_iff a b).mpr (hplaces.1.trans hplaces.2.symm).le
    have hkept : (ds.filter (·.span.first = place)).Sublist (ds.mergeSort startsBefore) :=
      List.sublist_mergeSort startsBefore_trans startsBefore_total htogether List.filter_sublist
    have hsub := hkept.filter (·.span.first = place)
    simp only [List.filter_filter, Bool.and_self] at hsub
    have hlength := ((List.mergeSort_perm ds startsBefore).filter (·.span.first = place)).length_eq
    exact (hsub.eq_of_length hlength.symm).symm

/-- Two sorted lists whose elements at every place are the same are the same. -/
theorem eq_of_stable {as bs : List Diagnostic} (hperm : as.Perm bs)
    (ha : as.Pairwise fun a b => a.span.first ≤ b.span.first)
    (hb : bs.Pairwise fun a b => a.span.first ≤ b.span.first)
    (hstable : ∀ place, as.filter (·.span.first = place) = bs.filter (·.span.first = place)) :
    as = bs := by
  induction as generalizing bs with
  | nil => exact hperm.nil_eq
  | cons a as ih =>
    cases bs with
    | nil => exact absurd hperm.symm.nil_eq (by simp)
    | cons b bs =>
      have hle : a.span.first ≤ b.span.first := by
        rcases List.mem_cons.mp (hperm.mem_iff.mpr (List.mem_cons_self ..)) with rfl | hmem
        · exact le_rfl
        · exact (List.pairwise_cons.mp ha).1 b hmem
      have hge : b.span.first ≤ a.span.first := by
        rcases List.mem_cons.mp (hperm.mem_iff.mp (List.mem_cons_self ..)) with rfl | hmem
        · exact le_rfl
        · exact (List.pairwise_cons.mp hb).1 a hmem
      have hplace : b.span.first = a.span.first := le_antisymm hge hle
      have hhead : a = b := by
        have hsame := hstable a.span.first
        simp only [List.filter_cons, hplace, decide_true, if_true] at hsame
        exact (List.cons.inj hsame).1
      subst hhead
      have htails : as = bs := by
        refine ih hperm.cons_inv ha.of_cons hb.of_cons fun place => ?_
        have hsame := hstable place
        by_cases hhere : a.span.first = place <;> simpa [List.filter_cons, hhere] using hsame
      rw [htails]

theorem iff_eq_mergeSort (ds sorted : List Diagnostic) :
    InSourceOrder ds sorted ↔ sorted = ds.mergeSort startsBefore := by
  constructor
  · intro h
    have h' := mergeSort ds
    exact eq_of_stable (h.perm.trans h'.perm.symm) h.ordered h'.ordered fun place =>
      (h.stable place).trans (h'.stable place).symm
  · rintro rfl
    exact mergeSort ds

end InSourceOrder

namespace Collection

theorem merge_errors (lexed parsed : Collection) :
    let kept := lexed.diagnostics.errors.stored ++ parsed.diagnostics.errors.stored
    (lexed.diagnostics.mergeInSourceOrder parsed.diagnostics).errors =
      ⟨(kept.mergeSort Diagnostics.startsBefore).take maxErrors,
        lexed.diagnostics.errors.total + parsed.diagnostics.errors.total⟩ := by
  intro kept
  have hcounted : kept.length ≤ lexed.diagnostics.errors.total + parsed.diagnostics.errors.total := by
    simp only [kept, List.length_append, diagnostics_errors, Log.ofStream_stored_length]
    omega
  have hpushed : Log.empty.pushAll (kept.mergeSort Diagnostics.startsBefore) =
      ⟨(kept.mergeSort Diagnostics.startsBefore).take maxErrors, kept.length⟩ := by
    have hstream := Log.ofStream_pushAll [] (kept.mergeSort Diagnostics.startsBefore)
    have hlength : (kept.mergeSort Diagnostics.startsBefore).length = kept.length :=
      List.length_mergeSort kept
    rw [List.nil_append] at hstream
    rw [← hlength]
    exact hstream
  simp only [Diagnostics.mergeInSourceOrder, kept, List.length_mergeSort] at hpushed hcounted ⊢
  rw [hpushed]
  simp only [Nat.add_sub_cancel' hcounted]

end Collection

/-- Capped diagnostics are one stream. However diagnostics are put together, they keep the first twenty
errors of the stream of all that were ever pushed, count the whole stream, and call a text incomplete by
the first error of it. Extending appends the streams, so it is associative. Merging keeps the first twenty
errors of the one list that has what both sides have kept sorted by start position, the first side leading
where two start together, and counts both streams. -/
theorem diagnostics_stream (a b c : Collection) :
    (a.diagnostics.errors.stored = a.errors.take 20 ∧
      a.diagnostics.totalErrors = a.errors.length ∧
      a.diagnostics.errors.stored.length = min 20 a.diagnostics.totalErrors ∧
      a.diagnostics.isPartialInput = a.errors.head?.any Diagnostic.isUnexpectedEnd) ∧
    ((a.diagnostics.extend b.diagnostics).errors.stored = (a.errors ++ b.errors).take 20 ∧
      (a.diagnostics.extend b.diagnostics).totalErrors = (a.errors ++ b.errors).length) ∧
    (a.diagnostics.extend b.diagnostics).extend c.diagnostics =
      a.diagnostics.extend (b.diagnostics.extend c.diagnostics) ∧
    ∃ sorted, (∀ other,
        InSourceOrder (a.diagnostics.errors.stored ++ b.diagnostics.errors.stored) other ↔
          other = sorted) ∧
      (a.diagnostics.mergeInSourceOrder b.diagnostics).errors.stored = sorted.take 20 ∧
      (a.diagnostics.mergeInSourceOrder b.diagnostics).totalErrors =
        a.diagnostics.totalErrors + b.diagnostics.totalErrors := by
  have hstream := a.diagnostics_errors
  have hextended := a.extend_errors b
  have hmerged := a.merge_errors b
  have hkept : a.diagnostics.errors.stored.length = min 20 a.diagnostics.totalErrors := by
    unfold Diagnostics.totalErrors
    rw [hstream]
    exact Log.ofStream_stored_length _
  refine ⟨⟨?_, ?_, hkept, a.isPartialInput_eq⟩, ⟨?_, ?_⟩, a.extend_assoc b c, ?_⟩
  · exact congrArg Log.stored hstream
  · exact congrArg Log.total hstream
  · exact congrArg Log.stored hextended
  · exact congrArg Log.total hextended
  · exact ⟨_, InSourceOrder.iff_eq_mergeSort _, congrArg Log.stored hmerged, congrArg Log.total hmerged⟩

end Chunkwise
