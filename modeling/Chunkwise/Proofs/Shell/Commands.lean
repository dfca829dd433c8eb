import Chunkwise.Proofs.Shell.Lines
import Chunkwise.Proofs.Token.Rendering

/-!
A command is carried out as long as nothing is gathered. A blank line is gathered like any other that
asks for more, although handing out what is gathered would find nothing: after blank lines a command is
read as program text, and since no token begins like a command, it is refused. Either way the session
stays what it was.
-/
namespace Chunkwise

/-- Neither a blank between tokens nor the first character of a token. -/
structure Foreign (c : Char) : Prop where
  settled : isBlank c = false
  scan : ∀ rest, Lexeme.scan c rest = ⟨.unknown c, 1, [⟨.unknownCharacter c, 0, 1⟩]⟩

theorem foreign_hash : Foreign '#' := ⟨by decide, fun _ => rfl⟩

namespace Foreign

variable {c : Char}

theorem symbol?_eq_none (hc : c.toNat ≤ 32 ∨ 127 < c.toNat) (rest : List Char) :
    Lexeme.symbol? (c :: rest) = none := by
  have hcode : ∀ s : Symbol, ∃ d tail, s.text.toList = d :: tail ∧ 32 < d.toNat ∧ d.toNat ≤ 127 := by
    intro s
    cases s <;> exact ⟨_, _, rfl, by decide, by decide⟩
  cases hsymbol : Lexeme.symbol? (c :: rest) with
  | none => rfl
  | some found =>
    obtain ⟨⟨more, hmore⟩, -⟩ := Lexeme.symbol?_prefix hsymbol
    obtain ⟨d, tail, htext, hlow, hhigh⟩ := hcode found.1
    rw [htext, List.cons_append] at hmore
    obtain ⟨rfl, -⟩ := List.cons.inj hmore
    omega

theorem of_code (hblank : isBlank c = false) (hc : c.toNat ≤ 32 ∨ 127 < c.toNat) : Foreign c where
  settled := hblank
  scan rest := by
    have hne : ∀ d : Char, 32 < d.toNat → d.toNat ≤ 127 → c ≠ d := by
      rintro d hlow hhigh rfl
      omega
    have hcode : c.toNat = c.val.toNat := rfl
    have hdigit : c.isDigit = false := by
      simp [Char.isDigit, UInt32.le_iff_toNat_le]
      omega
    have hletter : Lexeme.isLetter c = false := by
      have hscore := hne '_' (by decide) (by decide)
      unfold Lexeme.isLetter Char.isAlpha Char.isUpper Char.isLower
      simp [UInt32.le_iff_toNat_le, hscore]
      omega
    have hquote := hne '"' (by decide) (by decide)
    have hzero := hne '0' (by decide) (by decide)
    have hdot := hne '.' (by decide) (by decide)
    simp [Lexeme.scan, hquote, hzero, hdot, hdigit, hletter, symbol?_eq_none hc]

theorem of_isBlank (hblank : isBlank c = false) (htrimmed : Text.isBlank c = true) : Foreign c := by
  refine of_code hblank ?_
  simp [Text.isBlank, Text.blankRanges] at htrimmed
  omega

end Foreign

/-- A text begins with what separates tokens and then with a character that begins none. -/
structure Unreadable (cs g : List Char) (c : Char) : Prop where
  begins : g ++ [c] <+: cs
  blank : ∀ d ∈ g, isBlank d = true
  foreign : Foreign c

namespace Unreadable

variable {cs g : List Char} {c : Char}

theorem append (h : Unreadable cs g c) (more : List Char) : Unreadable (cs ++ more) g c :=
  ⟨h.begins.trans (List.prefix_append _ _), h.blank, h.foreign⟩

theorem behind (h : Unreadable cs g c) {before : List Char} (hbefore : ∀ d ∈ before, isBlank d = true) :
    Unreadable (before ++ cs) (before ++ g) c := by
  refine ⟨?_, ?_, h.foreign⟩
  · rw [List.append_assoc, List.prefix_append_right_inj]
    exact h.begins
  · intro d hd
    rcases List.mem_append.mp hd with hd | hd
    · exact hbefore d hd
    · exact h.blank d hd

theorem not_blank (h : Unreadable cs g c) : ¬∀ d ∈ cs, isBlank d = true := by
  intro hblank
  have hc := hblank c (h.begins.subset (by simp))
  rw [h.foreign.settled] at hc
  cases hc

end Unreadable

theorem blank_or_unreadable {cs : List Char} (h : ∀ c ∈ cs, Text.isBlank c = true) :
    (∀ c ∈ cs, isBlank c = true) ∨ ∃ g c, Unreadable cs g c := by
  induction cs with
  | nil => exact .inl nofun
  | cons c cs ih =>
    obtain ⟨hc, hcs⟩ := List.forall_mem_cons.mp h
    by_cases hblank : isBlank c = true
    · have hfirst : ∀ d ∈ [c], isBlank d = true := by simpa using hblank
      rcases ih hcs with hrest | ⟨g, d, hd⟩
      · exact .inl (List.forall_mem_cons.mpr ⟨hblank, hrest⟩)
      · exact .inr ⟨_, d, hd.behind hfirst⟩
    · have hforeign := Foreign.of_isBlank (Bool.eq_false_iff.mpr hblank) hc
      exact .inr ⟨[], c, by simp, nofun, hforeign⟩

theorem unreadable_of_command {line : String} {rest : List Char}
    (h : (Text.trim line).toList = '#' :: rest) : ∃ g c, Unreadable line.toList g c := by
  have hdropped : '#' :: rest <+: Text.dropBlanks line.toList := by
    rw [← h, Text.trim, String.toList_ofList, Text.dropBlanksRight, Text.dropBlanks, ← List.rdropWhile]
    exact List.rdropWhile_prefix ..
  obtain ⟨more, hmore⟩ := hdropped
  have hline : line.toList = line.toList.takeWhile Text.isBlank ++ '#' :: (rest ++ more) := by
    rw [← List.cons_append, hmore]
    exact List.takeWhile_append_dropWhile.symm
  have hhash : Unreadable ('#' :: (rest ++ more)) [] '#' := ⟨⟨_, rfl⟩, nofun, foreign_hash⟩
  have htrimmed : ∀ c ∈ line.toList.takeWhile Text.isBlank, Text.isBlank c = true :=
    fun c hc => List.mem_takeWhile_imp hc
  rw [hline]
  rcases blank_or_unreadable htrimmed with hblank | ⟨g, c, hc⟩
  · exact ⟨_, _, hhash.behind hblank⟩
  · exact ⟨g, c, hc.append _⟩

theorem trivia_of_blank {cs : List Char} (h : ∀ c ∈ cs, isBlank c = true) : Trivia cs := by
  induction cs with
  | nil => exact .nil
  | cons c cs ih =>
    obtain ⟨hc, hcs⟩ := List.forall_mem_cons.mp h
    exact .blank hc (ih hcs)

/-- The one thing that is wrong with a text that begins with `g` and then with no token. -/
def unreadableAt (src : Source) (g : List Char) (c : Char) : Diagnostics :=
  .ofIssues src ⟨[Lexer.locate (Position.after ⟨1, 1⟩ g) ⟨.unknownCharacter c, 0, 1⟩], 1⟩

theorem Unreadable.next {text : String} {g : List Char} {c : Char} (h : Unreadable text.toList g c) :
    (Lexer.ofText text).next.1.kind = .unknown c ∧ (Lexer.ofText text).next.2.issues =
      ⟨[Lexer.locate (Position.after ⟨1, 1⟩ g) ⟨.unknownCharacter c, 0, 1⟩], 1⟩ := by
  obtain ⟨more, hmore⟩ := h.begins
  have hsettled : Settled (c :: more) := by
    refine ⟨h.foreign.settled, ?_⟩
    rintro rfl
    exact absurd (h.foreign.scan []) (by decide)
  have hgap : skipGap .blank ⟨1, 1⟩ text.toList = .before (c :: more) (Position.after ⟨1, 1⟩ g) := by
    rw [← hmore, List.append_assoc, skipGap_trivia (trivia_of_blank h.blank), List.singleton_append,
      skipGap_settled hsettled]
  simp [Lexer.next, Lexer.ofText, hgap, h.foreign.scan, Log.isFull, Log.empty, Log.pushAll, Log.push,
    maxErrors]

namespace Evaluator

/-- A text that begins with no token is refused, and the evaluator is what it was. -/
theorem evaluate_unreadable (e : Evaluator) {text : String} {g : List Char} {c : Char}
    (h : Unreadable text.toList g c) :
    let ds := unreadableAt ⟨e.settings.fileName, text⟩ g c
    e.evaluate text = ⟨.error (.unreadable ds), e, "", ds.report⟩ := by
  intro ds
  obtain ⟨hkind, hissues⟩ := h.next
  have hclass : classify text = .invalid := by
    simp only [classify, hkind]
    rfl
  have hstart : Session.invalidStart ⟨e.settings.fileName, text⟩ = ds := by
    have herrors : ds.hasErrors = true := rfl
    simp only [Session.invalidStart, hissues]
    exact if_pos herrors
  simp [evaluate, evaluateWith, compile, hclass, Session.compile, hstart, Session.refused]

theorem evaluate_blank (e : Evaluator) {text : String} (h : ∀ c ∈ text.toList, isBlank c = true) :
    e.evaluate text = ⟨.ok .incomplete, e, "", ""⟩ := by
  have hend := Lexer.next_end (l := Lexer.ofText text) (trivia_of_blank h)
  have hclass : classify text = .endOfInput := by
    simp only [classify, hend.1]
    rfl
  simp [evaluate, evaluateWith, compile, hclass, Session.compile]

end Evaluator

/-- What a shell is given. -/
inductive ShellInput where
  | line (text : String)
  | chunk (text : String)
  | takePending

namespace Repl

def take (r : Repl) : ShellInput → Repl
  | .line text => (r.feedLine text).repl
  | .chunk text => (r.feedChunk text).repl
  | .takePending => r.takePending.2

def after (r : Repl) (inputs : List ShellInput) : Repl := inputs.foldl take r

theorem after_lines (r : Repl) (lines : List String) : r.after (lines.map .line) = r.fed lines := by
  simp [after, fed, List.foldl_map, take]

theorem feedLine_carriesOut {r : Repl} {line name : String} (h : r.pending = "")
    (hline : command? line = some name) : r.feedLine line = ⟨r.command name, r, "", ""⟩ := by
  simp [feedLine, h, hline]

theorem feedLine_gathers {r : Repl} {line : String} (h : r.pending ≠ "" ∨ command? line = none) :
    r.feedLine line = r.gather line := by
  by_cases hrest : r.pending = ""
  · simp [feedLine, hrest, h.resolve_left (not_not_intro hrest)]
  · simp [feedLine, hrest]

/-- A line is kept only if it makes what is gathered a text that needs more. -/
theorem feedLine_kept {r : Repl} {line : String} (h : (r.feedLine line).repl.pending ≠ "") :
    (r.evaluator.evaluate (r.pending ++ line ++ "\n")).isPartial = true ∧
      (r.feedLine line).repl = ⟨r.evaluator, r.pending ++ line ++ "\n"⟩ := by
  have hgathers : r.feedLine line = r.gather line := by
    refine feedLine_gathers (or_iff_not_imp_left.mpr fun hrest => ?_)
    rw [not_not] at hrest
    cases hcommand : command? line with
    | none => rfl
    | some name =>
      rw [feedLine_carriesOut hrest hcommand] at h
      exact absurd hrest h
  rw [hgathers, gather, submit_eq] at h ⊢
  by_cases hpartial : (r.evaluator.evaluate (r.pending ++ line ++ "\n")).isPartial = true
  · exact ⟨hpartial, by simp [Evaluator.evaluate_partial hpartial, Reply.isPartial]⟩
  · simp [hpartial] at h

theorem eq_of_rest {r : Repl} (h : r.pending = "") : r = ⟨r.evaluator, joined []⟩ :=
  congrArg (Repl.mk r.evaluator) h

/-- What is gathered are the lines since the shell was last at rest, and they need more. -/
theorem gathered (start : Repl) (hstart : start.pending = "") (inputs : List ShellInput) :
    ∃ earlier lines, inputs = earlier ++ lines.map .line ∧ (start.after earlier).pending = "" ∧
      start.after inputs = ⟨(start.after earlier).evaluator, joined lines⟩ ∧
      (lines ≠ [] → ((start.after earlier).evaluator.evaluate (joined lines)).isPartial = true) := by
  induction inputs using List.reverseRecOn with
  | nil => exact ⟨[], [], rfl, hstart, eq_of_rest hstart, fun h => absurd rfl h⟩
  | append_singleton inputs input ih =>
    have hafter : start.after (inputs ++ [input]) = (start.after inputs).take input := by simp [after]
    -- Only a line that asks for more leaves something gathered; it continues what was gathered before it.
    by_cases hrest : (start.after (inputs ++ [input])).pending = ""
    · exact ⟨_, [], by simp, hrest, eq_of_rest hrest, fun h => absurd rfl h⟩
    · obtain ⟨earlier, lines, rfl, hearlier, hlines, -⟩ := ih
      rw [hafter] at hrest
      cases input with
      | chunk | takePending => exact absurd rfl hrest
      | line text =>
        obtain ⟨hpartial, hkept⟩ := feedLine_kept hrest
        rw [hlines] at hpartial hkept
        refine ⟨earlier, lines ++ [text], by simp, hearlier, ?_, fun _ => ?_⟩
        · rw [hafter, hlines, joined_concat]
          exact hkept
        · rw [joined_concat]
          exact hpartial

theorem toList_joined (lines : List String) :
    (joined lines).toList = lines.flatMap fun line => line.toList ++ ['\n'] := by
  simp [joined, String.toList_join, List.flatMap_map]

theorem blank_joined {lines : List String} : (∀ c ∈ (joined lines).toList, isBlank c = true) ↔
    ∀ line ∈ lines, ∀ c ∈ line.toList, isBlank c = true := by
  have hnewline : isBlank '\n' = true := by decide
  rw [toList_joined]
  constructor
  · intro h line hline c hc
    exact h c (List.mem_flatMap.mpr ⟨line, hline, List.mem_append_left _ hc⟩)
  · intro h c hc
    obtain ⟨line, hline, hmem⟩ := List.mem_flatMap.mp hc
    rcases List.mem_append.mp hmem with hc | hc
    · exact h line hline c hc
    · rwa [List.mem_singleton.mp hc]

theorem fed_blank {r : Repl} (hrest : r.pending = "") {lines : List String}
    (hlines : ∀ line ∈ lines, ∀ c ∈ line.toList, isBlank c = true) :
    r.fed lines = ⟨r.evaluator, joined lines⟩ := by
  have hgathers : r.Gathers lines "" := by
    refine ⟨hrest, ?_, ?_⟩
    · intro line hline hhead
      have hblank : ∀ c ∈ line.toList, isBlank c = true := by
        rcases List.mem_append.mp (List.mem_of_mem_head? hline) with hmem | hmem
        · exact hlines line hmem
        · simp [List.mem_singleton.mp hmem]
      obtain ⟨rest, hcommand⟩ := List.head?_eq_some_iff.mp hhead
      obtain ⟨g, c, hc⟩ := unreadable_of_command hcommand
      exact hc.not_blank hblank
    · intro before _ hbefore
      have hblank := blank_joined.mpr fun line hline => hlines line (hbefore.subset hline)
      rw [Evaluator.evaluate_blank _ hblank]
      rfl
  exact hgathers.fed (List.prefix_refl _)

theorem blank_of_partial {e : Evaluator} {text : String} (h : Text.allBlank text = true)
    (hpartial : (e.evaluate text).isPartial = true) : ∀ c ∈ text.toList, isBlank c = true := by
  rcases blank_or_unreadable (List.all_eq_true.mp h) with hblank | ⟨g, c, hc⟩
  · exact hblank
  · rw [e.evaluate_unreadable hc] at hpartial
    cases hpartial

/-- A shell that would hand out nothing has gathered nothing but blanks. -/
theorem blank_of_gathered {start : Repl} (hstart : start.pending = "") {inputs : List ShellInput}
    (hblank : Text.allBlank (start.after inputs).pending = true) (hmore : (start.after inputs).pending ≠ "") :
    ∀ c ∈ (start.after inputs).pending.toList, isBlank c = true := by
  obtain ⟨earlier, lines, -, -, hafter, hpartial⟩ := gathered start hstart inputs
  have hpending : (start.after inputs).pending = joined lines := congrArg Repl.pending hafter
  have hlines : lines ≠ [] := by
    rintro rfl
    exact hmore hpending
  rw [hpending] at hblank ⊢
  exact blank_of_partial hblank (hpartial hlines)

/-- It has gathered something exactly if it has been fed blank lines since it was last at rest. -/
theorem gathered_iff_blank {start : Repl} (hstart : start.pending = "") {inputs : List ShellInput}
    (hblank : Text.allBlank (start.after inputs).pending = true) :
    (start.after inputs).pending ≠ "" ↔ ∃ earlier lines, inputs = earlier ++ lines.map .line ∧
      lines ≠ [] ∧ (start.after earlier).pending = "" ∧
      ∀ blank ∈ lines, ∀ c ∈ blank.toList, isBlank c = true := by
  constructor
  · intro hmore
    have hgiven := blank_of_gathered hstart hblank hmore
    obtain ⟨earlier, lines, hinputs, hearlier, hafter, -⟩ := gathered start hstart inputs
    have hpending : (start.after inputs).pending = joined lines := congrArg Repl.pending hafter
    rw [hpending] at hgiven hmore
    have hlines : lines ≠ [] := by
      rintro rfl
      exact hmore rfl
    exact ⟨earlier, lines, hinputs, hlines, hearlier, blank_joined.mp hgiven⟩
  · rintro ⟨earlier, lines, rfl, hlines, hrest, hgiven⟩
    have hafter : start.after (earlier ++ lines.map .line) =
        ⟨(start.after earlier).evaluator, joined lines⟩ := by
      have hlast := fed_blank hrest hgiven
      rw [← after_lines] at hlast
      simpa [after] using hlast
    have hsome : (joined lines).isEmpty = false := by
      rw [joined_isEmpty]
      exact List.isEmpty_eq_false_iff.mpr hlines
    rw [hafter]
    intro hempty
    rw [show joined lines = "" from hempty] at hsome
    cases hsome

variable {r : Repl} {line : String} {rest : List Char}

theorem feedLine_command (hrest : r.pending = "") (hline : (Text.trim line).toList = '#' :: rest) :
    r.feedLine line = ⟨r.command (Text.trim (String.ofList rest)), r, "", ""⟩ := by
  have hcommand : command? line = some (Text.trim (String.ofList rest)) := by simp [command?, hline]
  exact feedLine_carriesOut hrest hcommand

/-- Behind blank lines a command is program text that begins with no token. -/
theorem feedLine_refused (hgathered : r.pending ≠ "") (hblank : ∀ c ∈ r.pending.toList, isBlank c = true)
    (hline : (Text.trim line).toList = '#' :: rest) :
    ∃ g c, g ++ [c] <+: line.toList ∧ (∀ d ∈ g, isBlank d = true) ∧ isBlank c = false ∧
      let text := r.pending ++ line ++ "\n"
      let ds := unreadableAt ⟨r.evaluator.settings.fileName, text⟩ (r.pending.toList ++ g) c
      r.feedLine line = ⟨.failed (.unreadable ds), ⟨r.evaluator, ""⟩, "", ds.report⟩ := by
  obtain ⟨g, c, hc⟩ := unreadable_of_command hline
  have htext : Unreadable (r.pending ++ line ++ "\n").toList (r.pending.toList ++ g) c := by
    rw [String.toList_append, String.toList_append]
    exact (hc.behind hblank).append _
  refine ⟨g, c, hc.begins, hc.blank, hc.foreign.settled, ?_⟩
  simp [feedLine_gathers (.inl hgathered), gather, submit_eq, r.evaluator.evaluate_unreadable htext, stepOf,
    Reply.isPartial]

/-- Whether a command is carried out. Whatever a shell has been fed, if it would hand out nothing, a line
that holds a command leaves the session as it is. If nothing is gathered, the command is carried out and
nothing else happens. Otherwise the line is refused as program text, for the first character of it that is
no blank between tokens; something is gathered exactly if the shell has been fed blank lines since it was
last at rest, at least one. -/
theorem command_at_rest (settings : Settings) (inputs : List ShellInput) (line : String) (rest : List Char)
    (hblank : Text.allBlank ((ofSettings settings).after inputs).pending = true)
    (hline : (Text.trim line).toList = '#' :: rest) :
    let r := (ofSettings settings).after inputs
    (r.feedLine line).repl.evaluator = r.evaluator ∧
    (r.pending = "" →
      r.feedLine line = ⟨r.command (Text.trim (String.ofList rest)), r, "", ""⟩) ∧
    (r.pending ≠ "" → ∃ g c, g ++ [c] <+: line.toList ∧ (∀ d ∈ g, isBlank d = true) ∧ isBlank c = false ∧
      let text := r.pending ++ line ++ "\n"
      let ds := unreadableAt ⟨r.evaluator.settings.fileName, text⟩ (r.pending.toList ++ g) c
      r.feedLine line = ⟨.failed (.unreadable ds), ⟨r.evaluator, ""⟩, "", ds.report⟩) ∧
    (r.pending ≠ "" ↔ ∃ earlier lines, inputs = earlier ++ lines.map .line ∧ lines ≠ [] ∧
      ((ofSettings settings).after earlier).pending = "" ∧
      ∀ blank ∈ lines, ∀ c ∈ blank.toList, isBlank c = true) := by
  intro r
  have hrefused := fun hmore : r.pending ≠ "" =>
    feedLine_refused hmore (blank_of_gathered rfl hblank hmore) hline
  refine ⟨?_, fun hrest => feedLine_command hrest hline, hrefused, gathered_iff_blank rfl hblank⟩
  by_cases hrest : r.pending = ""
  · rw [feedLine_command hrest hline]
  · obtain ⟨g, c, -, -, -, hfed⟩ := hrefused hrest
    rw [hfed]

/-- One empty line is enough for a command to be refused that a shell at rest carries out. -/
theorem command_at_rest_emptyLine :
    (∃ ds, ((fresh.after [.line ""]).feedLine "#vars").answer = .failed (.unreadable ds)) ∧
      (fresh.feedLine "#vars").answer = .listing [] := by
  have hblank : Text.allBlank (fresh.after [.line ""]).pending = true := by decide +kernel
  have hgathered : (fresh.after [.line ""]).pending ≠ "" := by decide +kernel
  have hline : (Text.trim "#vars").toList = '#' :: "vars".toList := by decide +kernel
  have hname : Text.trim (String.ofList "vars".toList) = "vars" := by decide +kernel
  obtain ⟨-, -, hrefused, -⟩ := command_at_rest { Settings.default with defaultUsings := [] }
    [.line ""] "#vars" _ hblank hline
  obtain ⟨-, hcommand, -⟩ := command_at_rest { Settings.default with defaultUsings := [] }
    [] "#vars" _ rfl hline
  obtain ⟨g, c, -, -, -, hfed⟩ := hrefused hgathered
  rw [hname] at hcommand
  exact ⟨⟨_, congrArg Fed.answer hfed⟩, congrArg Fed.answer (hcommand rfl)⟩

end Repl

end Chunkwise
