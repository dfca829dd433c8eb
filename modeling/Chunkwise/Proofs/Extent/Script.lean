import Chunkwise.Parser.Cursor
import Chunkwise.Proofs.Extent.Tree

/-!
A list of tokens whose only end of input is the last token, cursors that stand at its positions, and
trees that stand for the tokens between two positions. If the spans of the tokens are in order, a tree
that is built over a row of such trees is nested as soon as its span reaches over the row.
-/
namespace Chunkwise

/-- Tokens of which the last one, and no other one, is the end of input. -/
structure Script where
  body : List Token
  stop : Token
  stop_ends : stop.kind = .endOfInput
  body_goes : ∀ t ∈ body, t.kind ≠ .endOfInput

namespace Script

variable {T : Script} {i j k m : Nat}

def tokens (T : Script) : List Token := T.body ++ [T.stop]

/-- The token at a position; the end of input stands at all positions from the last one on. -/
def token (T : Script) (i : Nat) : Token := T.body[i]?.getD T.stop

def kindAt (T : Script) (i : Nat) : TokenKind := (T.token i).kind

def spanAt (T : Script) (i : Nat) : Span := (T.token i).span

theorem kindAt_eq_endOfInput : T.kindAt i = .endOfInput ↔ T.body.length ≤ i := by
  unfold kindAt token
  by_cases h : i < T.body.length
  · have hne := T.body_goes T.body[i] (List.getElem_mem h)
    simp [h, hne]
  · have hle : T.body.length ≤ i := by omega
    simp [hle, T.stop_ends]

theorem lt_of_kindAt (h : T.kindAt i ≠ .endOfInput) : i < T.body.length := by
  by_contra hge
  exact h (kindAt_eq_endOfInput.mpr (by omega))

theorem drop_tokens (h : i ≤ T.body.length) :
    T.tokens.drop i = T.token i :: T.tokens.drop (i + 1) := by
  have hlt : i < T.tokens.length := by
    simp only [tokens, List.length_append, List.length_singleton]
    omega
  rw [List.drop_eq_getElem_cons hlt]
  congr 1
  by_cases hi : i < T.body.length
  · simp [tokens, token, hi]
  · obtain rfl : i = T.body.length := by omega
    simp [tokens, token]

/-- Every token ends where it begins or later, and before the next one begins. -/
structure Tidy (T : Script) : Prop where
  proper : ∀ i, (T.spanAt i).first ≤ (T.spanAt i).last
  before : ∀ i j, i < j → j ≤ T.body.length → (T.spanAt i).Before (T.spanAt j)

theorem Tidy.first_le (h : T.Tidy) (hij : i ≤ j) (hj : j ≤ T.body.length) :
    (T.spanAt i).first ≤ (T.spanAt j).first := by
  rcases Nat.eq_or_lt_of_le hij with rfl | hlt
  · exact le_rfl
  · exact (h.proper i).trans (h.before i j hlt hj).le

theorem Tidy.last_le (h : T.Tidy) (hij : i ≤ j) (hj : j ≤ T.body.length) :
    (T.spanAt i).last ≤ (T.spanAt j).last := by
  rcases Nat.eq_or_lt_of_le hij with rfl | hlt
  · exact le_rfl
  · exact (h.before i j hlt hj).le.trans (h.proper j)

/-- The region reaches from the token at `i` up to the one before `j`. -/
def Spans (T : Script) (i j : Nat) (s : Span) : Prop :=
  T.Tidy → s.first = (T.spanAt i).first ∧ s.last = (T.spanAt (j - 1)).last

theorem spans_token (T : Script) (i : Nat) : T.Spans i (i + 1) (T.spanAt i) := fun _ => ⟨rfl, rfl⟩

theorem Spans.merge {s t : Span} (hs : T.Spans i k s) (ht : T.Spans m j t) (him : i ≤ m) (hkj : k ≤ j)
    (hm : m ≤ T.body.length) (hj : j ≤ T.body.length) : T.Spans i j (s.merge t) := by
  intro h
  obtain ⟨hfirst, hlast⟩ := hs h
  obtain ⟨hfirst', hlast'⟩ := ht h
  rw [Span.merge_first, Span.merge_last, hfirst, hlast, hfirst', hlast']
  exact ⟨min_eq_left (h.first_le him hm), max_eq_right (h.last_le (by omega) (by omega))⟩

/-- The tree stands for the tokens from `i` up to, not including, `j`. -/
structure Stands (T : Script) (i j : Nat) (t : SpanTree) : Prop where
  lt : i < j
  spans : T.Spans i j t.span
  nested : T.Tidy → t.Nested

/-- The trees stand for tokens between `i` and `j`, one after the other. -/
def Row (T : Script) : Nat → Nat → List SpanTree → Prop
  | i, j, [] => i ≤ j
  | i, j, t :: ts => ∃ k m, i ≤ k ∧ T.Stands k m t ∧ Row T m j ts

variable {t : SpanTree} {ts us : List SpanTree}

theorem Row.le (h : T.Row i j ts) : i ≤ j := by
  induction ts generalizing i with
  | nil => exact h
  | cons t ts ih =>
    obtain ⟨k, m, hik, ht, hts⟩ := h
    have hkm := ht.lt
    have hmj := ih hts
    omega

theorem Row.nil (h : i ≤ j) : T.Row i j [] := h

theorem Row.cons (ht : T.Stands i j t) (hts : T.Row j k ts) : T.Row i k (t :: ts) :=
  ⟨i, j, Nat.le_refl i, ht, hts⟩

theorem Row.append (hts : T.Row i j ts) (hus : T.Row j k us) : T.Row i k (ts ++ us) := by
  induction ts generalizing i with
  | nil =>
    cases us with
    | nil => exact Nat.le_trans hts hus
    | cons u us =>
      obtain ⟨a, b, hja, hu, hus⟩ := hus
      exact ⟨a, b, Nat.le_trans hts hja, hu, hus⟩
  | cons t ts ih =>
    obtain ⟨a, b, hia, ht, hts⟩ := hts
    exact ⟨a, b, hia, ht, ih hts⟩

theorem Row.wait (hts : T.Row i j ts) (hjk : j ≤ k) : T.Row i k ts := by
  have h := hts.append (Row.nil hjk)
  rwa [List.append_nil] at h

theorem Row.after (hij : i ≤ j) (hts : T.Row j k ts) : T.Row i k ts := (Row.nil hij).append hts

theorem Stands.row (ht : T.Stands i j t) : T.Row i j [t] := Row.cons ht (Row.nil (Nat.le_refl j))

theorem Row.push {α : Type} {tree : α → SpanTree} {as : List α} {a : α} (has : T.Row i j (as.map tree))
    (ha : T.Stands j k (tree a)) : T.Row i k ((as ++ [a]).map tree) := by
  rw [List.map_append]
  exact has.append ha.row

theorem Row.inside (h : T.Row i j ts) (hT : T.Tidy) (hj : j ≤ T.body.length) :
    ∀ t ∈ ts, (T.spanAt i).first ≤ t.span.first ∧ t.span.last ≤ (T.spanAt (j - 1)).last ∧ t.Nested := by
  induction ts generalizing i with
  | nil => simp
  | cons t ts ih =>
    obtain ⟨k, m, hik, ht, hts⟩ := h
    have hkm := ht.lt
    have hmj := hts.le
    obtain ⟨hfirst, hlast⟩ := ht.spans hT
    intro u hu
    rcases List.mem_cons.mp hu with rfl | hu
    · rw [hfirst, hlast]
      exact ⟨hT.first_le hik (by omega), hT.last_le (by omega) (by omega), ht.nested hT⟩
    · obtain ⟨hleft, hright⟩ := ih hts u hu
      exact ⟨(hT.first_le (by omega) (by omega)).trans hleft, hright⟩

theorem Row.apart (h : T.Row i j ts) (hT : T.Tidy) (hj : j ≤ T.body.length) :
    ts.Pairwise fun t u => t.span.Before u.span := by
  induction ts generalizing i with
  | nil => exact List.Pairwise.nil
  | cons t ts ih =>
    obtain ⟨k, m, hik, ht, hts⟩ := h
    have hkm := ht.lt
    have hmj := hts.le
    obtain ⟨-, hlast⟩ := ht.spans hT
    refine List.Pairwise.cons (fun u hu => ?_) (ih hts)
    have hleft := (hts.inside hT hj u hu).1
    have hbefore := hT.before (m - 1) m (by omega) (by omega)
    rw [Span.Before, hlast]
    exact hbefore.trans_le hleft

theorem Row.nested {s : Span} (h : T.Row i j ts) (hs : T.Spans i j s) (hj : j ≤ T.body.length)
    (hT : T.Tidy) : (SpanTree.node s ts).Nested := by
  obtain ⟨hfirst, hlast⟩ := hs hT
  have hinside := h.inside hT hj
  refine .node (fun t ht => ?_) (h.apart hT hj) fun t ht => (hinside t ht).2.2
  rw [Span.Within, hfirst, hlast]
  exact ⟨(hinside t ht).1, (hinside t ht).2.1⟩

theorem Row.stands {s : Span} (h : T.Row i j ts) (hij : i < j) (hs : T.Spans i j s)
    (hj : j ≤ T.body.length) : T.Stands i j (.node s ts) := ⟨hij, hs, h.nested hs hj⟩

theorem stands_token (hk : T.kindAt i ≠ .endOfInput) : T.Stands i (i + 1) (.node (T.spanAt i) []) :=
  (Row.nil (Nat.le_succ i)).stands (Nat.lt_succ_self i) (T.spans_token i) (lt_of_kindAt hk)

theorem Row.closed {s : Span} (h : T.Row i j ts) (hs : T.Spans i k s) (hkj : k ≤ j) (hij : i < j)
    (hj : j ≤ T.body.length) : T.Stands i j (.node (s.merge (T.spanAt (j - 1))) ts) := by
  have hlast := T.spans_token (j - 1)
  rw [Nat.sub_add_cancel (by omega)] at hlast
  exact h.stands hij (hs.merge hlast (by omega) hkj (by omega) hj) hj

theorem Row.enclosed (h : T.Row i j ts) (hij : i < j) (hj : j ≤ T.body.length) :
    T.Stands i j (.node ((T.spanAt i).merge (T.spanAt (j - 1))) ts) :=
  h.closed (T.spans_token i) hij hij hj

/-- The region of a whole parse reaches from the first token to the one passed last. If none was passed,
nothing stands in it. -/
theorem Row.whole (h : T.Row 0 j ts) (hj : j ≤ T.body.length) (hT : T.Tidy) :
    (SpanTree.node ((T.spanAt 0).merge (T.spanAt (j - 1))) ts).Nested := by
  rcases Nat.eq_zero_or_pos j with rfl | hpos
  · cases ts with
    | nil => exact .node (by simp) List.Pairwise.nil (by simp)
    | cons t ts =>
      obtain ⟨k, m, -, ht, hts⟩ := h
      have hkm := ht.lt
      have hm := hts.le
      omega
  · exact (h.enclosed hpos hj).nested hT

theorem Stands.join {u : SpanTree} (ht : T.Stands i k t) (hts : T.Row k m ts) (hu : T.Stands m j u)
    (hj : j ≤ T.body.length) : T.Stands i j (.node (t.span.merge u.span) (t :: (ts ++ [u]))) := by
  have hik := ht.lt
  have hkm := hts.le
  have hmj := hu.lt
  have hrow : T.Row i j (t :: (ts ++ [u])) := Row.cons ht (hts.append hu.row)
  exact hrow.stands (by omega) (ht.spans.merge hu.spans (by omega) (by omega) (by omega) hj) hj

end Script

/-- The cursor stands at the position `i`. -/
structure Cursor.At (T : Script) (i : Nat) (c : Cursor) : Prop where
  left : c.current :: c.later = T.tokens.drop i
  previous : c.previousSpan = T.spanAt (i - 1)

namespace Cursor.At

variable {T : Script} {i j : Nat} {c : Cursor}

theorem le (h : c.At T i) : i ≤ T.body.length := by
  have hlength := congrArg List.length h.left
  simp only [Script.tokens, List.length_cons, List.length_drop, List.length_append,
    List.length_nil] at hlength
  omega

theorem token (h : c.At T i) : c.current = T.token i ∧ c.later = T.tokens.drop (i + 1) := by
  have hleft := h.left
  rw [Script.drop_tokens h.le] at hleft
  exact List.cons.inj hleft

theorem kind (h : c.At T i) : c.current.kind = T.kindAt i := by rw [h.token.1, Script.kindAt]

theorem span (h : c.At T i) : c.current.span = T.spanAt i := by rw [h.token.1, Script.spanAt]

theorem remaining (h : c.At T i) : c.remaining = T.body.length + 1 - i := by
  have hlength := congrArg List.length h.left
  simpa [Cursor.remaining, Script.tokens] using hlength

theorem advance (h : c.At T i) (hk : T.kindAt i ≠ .endOfInput) : c.advance.At T (i + 1) := by
  have hlater := h.token.2
  have hnext := Script.drop_tokens (Script.lt_of_kindAt hk)
  rw [hnext] at hlater
  constructor
  · rw [Cursor.advance, hlater, hnext]
  · rw [Cursor.advance, hlater, Cursor.previousSpan]
    exact h.span

theorem advance_end (h : c.At T i) (hk : T.kindAt i = .endOfInput) : c.advance = c := by
  have hlater := h.token.2
  have hle := Script.kindAt_eq_endOfInput.mp hk
  have hnil : T.tokens.drop (i + 1) = [] := by
    rw [List.drop_eq_nil_iff]
    simp only [Script.tokens, List.length_append, List.length_singleton]
    omega
  rw [Cursor.advance, hlater, hnil]

theorem start (T : Script) : (Cursor.ofTokens T.tokens).At T 0 := by
  have hclosed : T.tokens.getLast? = some T.stop := by simp [Script.tokens]
  have hcons := Script.drop_tokens (Nat.zero_le T.body.length)
  rw [List.drop_zero] at hcons
  have hstart : Cursor.ofTokens T.tokens = ⟨T.token 0, T.tokens.drop 1, none, Log.empty⟩ := by
    simp only [Cursor.ofTokens, hclosed, T.stop_ends, if_true]
    rw [hcons]
    rfl
  rw [hstart]
  exact ⟨hcons.symm, rfl⟩

end Cursor.At

end Chunkwise
