import Chunkwise.Shell.Repl
import Mathlib.Data.List.Infix

/-!
An incomplete chunk leaves no trace: the evaluator is what it was and nothing is written. So a shell
that gathers lines until they make a chunk ends where one evaluation of all the lines ends.
-/
namespace Chunkwise

def Reply.isPartial (reply : Reply Evaluation) : Bool :=
  match reply.result with
  | .ok .incomplete => true
  | _ => false

namespace Session

/-- A chunk that is not bound changes nothing, and one that is incomplete is not talked about. -/
structure Untouched (s : Session) (c : Compiled) : Prop where
  incomplete : c.outcome = .incomplete → c.session = s ∧ c.messages = ""
  unreadable : ∀ ds, c.outcome = .unreadable ds → c.session = s

variable (s : Session) (src : Source) (mode : ParseMode)

theorem refused_untouched (ds : Diagnostics) : s.Untouched (s.refused ds mode) where
  incomplete h := by cases h
  unreadable _ _ := rfl

theorem bind_untouched (kind : UnitKind) (binder : Bind Code) :
    s.Untouched (s.bind src kind binder) := by
  unfold Session.bind
  split
  · split <;> exact ⟨fun h => (by cases h), fun ds h => (by cases h)⟩
  · exact ⟨fun h => (by cases h), fun ds h => (by cases h)⟩

theorem bindParsed_untouched {α : Type} (kind : UnitKind) (parsed : Parsed α)
    (binder : α → Bind Code) : s.Untouched (s.bindParsed src mode kind parsed binder) := by
  unfold bindParsed
  split
  · split
    · exact ⟨fun _ => ⟨rfl, rfl⟩, fun ds h => by cases h⟩
    · exact s.refused_untouched mode _
  · split
    · exact s.bind_untouched src kind _
    · exact ⟨fun h => (by cases h), fun _ _ => rfl⟩

theorem compile_untouched (chunkClass : ChunkClass) :
    s.Untouched (s.compile src chunkClass mode) := by
  cases chunkClass with
  | endOfInput => exact ⟨fun _ => ⟨rfl, rfl⟩, fun ds h => by cases h⟩
  | invalid => exact s.refused_untouched mode _
  | statements => exact s.bindParsed_untouched src mode .statements _ _
  | declarations => exact s.bindParsed_untouched src mode .declarations _ _

end Session

namespace Evaluator

variable {e : Evaluator} {text : String}

theorem compile_incomplete (h : (e.compile text).result = .ok .incomplete) :
    e.compile text = ⟨.ok .incomplete, e, "", ""⟩ := by
  have hfirst := e.session.compile_untouched ⟨e.settings.fileName, text⟩ .silent (classify text)
  unfold compile at h ⊢
  dsimp only at h ⊢
  generalize e.session.compile ⟨e.settings.fileName, text⟩ (classify text) .silent = first at *
  obtain ⟨outcome, session, messages⟩ := first
  cases outcome with
  | unit u => cases h
  | unresolved ds => cases h
  | incomplete =>
    obtain ⟨rfl, rfl⟩ := hfirst.incomplete rfl
    rfl
  | unreadable ds =>
    obtain rfl := hfirst.unreadable ds rfl
    have hlast := e.session.compile_untouched ⟨e.settings.fileName, text⟩ .reporting (classify text)
    dsimp only at h hlast ⊢
    generalize e.session.compile ⟨e.settings.fileName, text⟩ (classify text) .reporting = last at *
    obtain ⟨outcome, session, messages⟩ := last
    cases outcome with
    | unit u => cases h
    | unreadable ds => cases h
    | unresolved ds => cases h
    | incomplete =>
      obtain ⟨rfl, rfl⟩ := hlast.incomplete rfl
      rfl

theorem evaluate_partial (h : (e.evaluate text).isPartial = true) :
    e.evaluate text = ⟨.ok .incomplete, e, "", ""⟩ := by
  unfold evaluate evaluateWith at h ⊢
  dsimp only at h ⊢
  cases hc : (e.compile text).result with
  | error err => simp [hc, Reply.isPartial] at h
  | ok c =>
    cases c with
    | incomplete => simp [compile_incomplete hc]
    | unit u =>
      simp only [hc, Reply.isPartial] at h
      cases hr : (run (e.compile text).evaluator u).result <;> simp [hr, Except.map] at h

end Evaluator

namespace Repl

/-- Lines as one text, each with its newline. -/
def joined (lines : List String) : String := String.join (lines.map (· ++ "\n"))

def fed (r : Repl) (lines : List String) : Repl :=
  lines.foldl (fun r line => (r.feedLine line).repl) r

/-- What the shell makes of an evaluation. -/
def stepOf (reply : Reply Evaluation) : Step :=
  match reply.result with
  | .ok .incomplete => .more
  | .ok (.completed value) => shown reply.evaluator value
  | .error err => .failed err

theorem joined_concat (lines : List String) (line : String) :
    joined (lines ++ [line]) = joined lines ++ line ++ "\n" := by
  simp [joined, String.join_append, String.append_assoc]

theorem submit_eq (r : Repl) : r.submit =
    let reply := r.evaluator.evaluate r.pending
    ⟨stepOf reply, ⟨reply.evaluator, if reply.isPartial then r.pending else ""⟩, reply.out,
      reply.messages⟩ := by
  unfold submit stepOf Reply.isPartial
  dsimp only
  split <;> simp_all

theorem joined_isEmpty (lines : List String) : (joined lines).isEmpty = lines.isEmpty := by
  induction lines using List.reverseRecOn with
  | nil => rfl
  | append_singleton lines line _ =>
    have hjoined : joined (lines ++ [line]) ≠ "" := by simp [joined_concat]
    have hlines : lines ++ [line] ≠ [] := by simp
    rw [List.isEmpty_eq_false_iff.mpr hlines, Bool.eq_false_iff]
    exact fun hempty => hjoined (String.isEmpty_iff.mp hempty)

theorem feedLine_gathered (e : Evaluator) (before : List String) (line : String)
    (hline : before = [] → command? line = none) :
    feedLine ⟨e, joined before⟩ line = submit ⟨e, joined (before ++ [line])⟩ := by
  unfold feedLine gather
  rw [joined_isEmpty, joined_concat]
  cases before with
  | nil => simp [hline rfl]
  | cons first rest => rfl

/-- The lines that `r` may be fed: the first is no command, and each text before the last line is
incomplete. -/
structure Gathers (r : Repl) (init : List String) (last : String) : Prop where
  pending : r.pending = ""
  first : ∀ line, (init ++ [last]).head? = some line → (Text.trim line).toList.head? ≠ some '#'
  incomplete : ∀ before, before ≠ [] → before <+: init →
    (r.evaluator.evaluate (joined before)).isPartial = true

namespace Gathers

variable {r : Repl} {init : List String} {last : String}

theorem command?_eq_none (h : r.Gathers init last) {line : String}
    (hline : (init ++ [last]).head? = some line) : command? line = none := by
  have hfirst := h.first line hline
  unfold command?
  split
  · next heq => simp [heq] at hfirst
  · rfl

/-- One more line of a chunk that stays incomplete is gathered and not answered. -/
theorem feedLine (h : r.Gathers init last) {before : List String} {line : String}
    (hline : before ++ [line] <+: init) :
    Repl.feedLine ⟨r.evaluator, joined before⟩ line =
      ⟨.more, ⟨r.evaluator, joined (before ++ [line])⟩, "", ""⟩ := by
  have hpartial := h.incomplete (before ++ [line]) (by simp) hline
  obtain ⟨after, rfl⟩ := hline
  rw [feedLine_gathered _ _ _ fun hbefore => h.command?_eq_none (by simp [hbefore]), submit_eq]
  simp [Evaluator.evaluate_partial hpartial, stepOf, Reply.isPartial]

theorem fed (h : r.Gathers init last) {before : List String} (hbefore : before <+: init) :
    r.fed before = ⟨r.evaluator, joined before⟩ := by
  induction before using List.reverseRecOn with
  | nil =>
    obtain ⟨e, pending⟩ := r
    obtain rfl := h.pending
    rfl
  | append_singleton before line ih =>
    have hprefix : before <+: init := (List.prefix_append before [line]).trans hbefore
    unfold Repl.fed at ih ⊢
    rw [List.foldl_concat, ih hprefix, h.feedLine hbefore]

end Gathers

/-- Lines fed one by one are as good as their text at once: every line but the last asks for more
and writes nothing, and the last one leads to what evaluating the whole text leads to. -/
theorem feedLine_eq_evaluate {r : Repl} {init : List String} {last : String}
    (h : r.Gathers init last) :
    (∀ before line after, init = before ++ line :: after →
      let fed := (r.fed before).feedLine line
      fed.answer = .more ∧ fed.out = "" ∧ fed.messages = "") ∧
    let fed := (r.fed init).feedLine last
    let reply := r.evaluator.evaluate (joined (init ++ [last]))
    fed.answer = stepOf reply ∧ fed.out = reply.out ∧ fed.messages = reply.messages ∧
      fed.repl.evaluator = reply.evaluator ∧ (fed.answer ≠ .more → fed.repl.pending = "") := by
  constructor
  · rintro before line after rfl
    have hline : before ++ [line] <+: before ++ line :: after := ⟨after, by simp⟩
    rw [h.fed (List.prefix_append _ _), h.feedLine hline]
    exact ⟨rfl, rfl, rfl⟩
  · have hlast : init = [] → command? last = none := by
      rintro rfl
      exact h.command?_eq_none rfl
    dsimp only
    rw [h.fed (List.prefix_refl _), feedLine_gathered _ _ _ hlast, submit_eq]
    refine ⟨rfl, rfl, rfl, rfl, fun hmore => ?_⟩
    dsimp only at hmore ⊢
    rw [if_neg]
    intro hpartial
    exact hmore (by rw [Evaluator.evaluate_partial hpartial]; rfl)

/-- A fresh shell without directives. -/
def fresh : Repl := .ofSettings { Settings.default with defaultUsings := [] }

/-- A block whose brace is closed on the third line. -/
theorem feedLine_eq_evaluate_block :
    ((fresh.fed ["if (true) \x7b", "print(2);"]).feedLine "\x7d").out = "2\n" := by
  have hlines : fresh.Gathers ["if (true) \x7b", "print(2);"] "\x7d" := by
    refine ⟨rfl, ?_, ?_⟩
    · rintro line ⟨⟩
      decide +kernel
    · intro before hne hbefore
      simp only [← List.mem_inits, List.inits, List.map, List.mem_cons, List.not_mem_nil,
        or_false] at hbefore
      obtain rfl | rfl | rfl := hbefore
      · exact absurd rfl hne
      · decide +kernel
      · decide +kernel
  have hout := (feedLine_eq_evaluate hlines).2.2.1
  exact hout.trans (by decide +kernel)

end Repl

end Chunkwise
