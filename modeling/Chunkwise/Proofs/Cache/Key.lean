import Chunkwise.Binder.Names
import Chunkwise.Proofs.Image.Shape
import Chunkwise.Proofs.Parser.Names

/-!
A key is the text of a container and a name, and says neither where the container's namespace ends and its
types begin nor where one segment ends and the next begins. Both can be told nevertheless: no path is
that of a namespace and of a type, and no segment is empty or has a dot in it.
-/
namespace Chunkwise

/-- No path is that of two places, and the names in it can stand between dots. -/
structure Charted (shape : List (Path × Bool)) : Prop where
  distinct : (shape.map Prod.fst).Nodup
  segments : ∀ x ∈ shape, ∀ n ∈ x.1, IsSegment n

theorem Path.text_ne_empty {p : Path} (hne : p ≠ []) (h : ∀ n ∈ p, IsSegment n) : p.text ≠ "" := by
  intro htext
  have hback := Path.ofText_text hne h
  rw [htext] at hback
  have hempty : "" ∈ p := by
    rw [← hback]
    decide
  exact (h "" hempty).1 rfl

theorem Path.text_injective {p q : Path} (hp : ∀ n ∈ p, IsSegment n) (hq : ∀ n ∈ q, IsSegment n)
    (h : p.text = q.text) : p = q := by
  by_cases hpe : p = []
  · by_cases hqe : q = []
    · rw [hpe, hqe]
    · subst hpe
      exact absurd h.symm (Path.text_ne_empty hqe hq)
  · by_cases hqe : q = []
    · subst hqe
      exact absurd h (Path.text_ne_empty hpe hp)
    · rw [← Path.ofText_text hpe hp, h, Path.ofText_text hqe hq]

namespace TypeContext

variable {shape shape' : List (Path × Bool)} {ctx ctx' : TypeContext} {name name' : String}

/-- The namespace of the context and the types around it exist. -/
structure Located (shape : List (Path × Bool)) (ctx : TypeContext) : Prop where
  space : ctx.space = [] ∨ (ctx.space, false) ∈ shape
  types : ∀ p ∈ ctx.types, (p, true) ∈ shape

theorem mem_types {p : Path} :
    p ∈ ctx.types ↔ ∃ front, front ≠ [] ∧ front <+: ctx.enclosing ∧ p = ctx.space ++ front := by
  simp only [types, List.mem_reverse, List.mem_map, List.mem_range]
  constructor
  · rintro ⟨i, hi, rfl⟩
    refine ⟨ctx.enclosing.take (i + 1), fun hnil => ?_, List.take_prefix _ _, rfl⟩
    have hlength := congrArg List.length hnil
    simp only [List.length_take, List.length_nil] at hlength
    omega
  · rintro ⟨front, hne, hprefix, rfl⟩
    have hpos := List.length_pos_iff.mpr hne
    have hle := hprefix.length_le
    refine ⟨front.length - 1, by omega, ?_⟩
    rw [Nat.sub_add_cancel hpos, ← List.prefix_iff_eq_take.mp hprefix]

theorem located_top : top.Located shape := ⟨.inl rfl, by simp [types, top]⟩

theorem Located.mono (h : ctx.Located shape) (hsub : shape ⊆ shape') : ctx.Located shape' :=
  ⟨h.space.imp_right fun hmem => hsub hmem, fun p hp => hsub (h.types p hp)⟩

theorem Located.nested (h : ctx.Located shape) (hmem : (ctx.container ++ [name], true) ∈ shape) :
    (ctx.nested name).Located shape := by
  refine ⟨h.space, fun p hp => ?_⟩
  obtain ⟨front, hne, hprefix, rfl⟩ := mem_types.mp hp
  rcases List.prefix_concat_iff.mp hprefix with rfl | hprefix
  · rwa [container, List.append_assoc] at hmem
  · exact h.types _ (mem_types.mpr ⟨front, hne, hprefix, rfl⟩)

theorem Located.outer (h : (ctx.nested name).Located shape) : ctx.Located shape := by
  refine ⟨h.space, fun p hp => h.types p ?_⟩
  obtain ⟨front, hne, hprefix, rfl⟩ := mem_types.mp hp
  exact mem_types.mpr ⟨front, hne, hprefix.trans (List.prefix_append _ _), rfl⟩

theorem Located.segments (h : ctx.Located shape) (hc : Charted shape) :
    ∀ n ∈ ctx.container, IsSegment n := by
  intro n hn
  by_cases htop : ctx.enclosing = []
  · rw [container, htop, List.append_nil] at hn
    rcases h.space with hroot | hmem
    · simp [hroot] at hn
    · exact hc.segments _ hmem n hn
  · exact hc.segments _ (h.types _ (mem_types.mpr ⟨_, htop, List.prefix_rfl, rfl⟩)) n hn

/-- A namespace does not go on inside the types of another context. -/
theorem Located.eq_nil {front rest : List String} (h : ctx.Located shape) (h' : ctx'.Located shape)
    (hc : Charted shape) (hspace : ctx'.space = ctx.space ++ front)
    (henclosing : ctx.enclosing = front ++ rest) : front = [] := by
  by_contra hne
  have htype : (ctx.space ++ front, true) ∈ shape :=
    h.types _ (mem_types.mpr ⟨front, hne, henclosing ▸ List.prefix_append _ _, rfl⟩)
  rcases h'.space with hroot | hmem
  · rw [hspace] at hroot
    exact hne (List.append_eq_nil_iff.mp hroot).2
  · rw [hspace] at hmem
    have hsame := List.inj_on_of_nodup_map hc.distinct hmem htype rfl
    simp at hsame

theorem Located.eq_of_container (h : ctx.Located shape) (h' : ctx'.Located shape)
    (hc : Charted shape) (heq : ctx.container = ctx'.container) : ctx = ctx' := by
  have hboth : ∀ {c c' : TypeContext} {front : List String}, c.Located shape → c'.Located shape →
      c'.space = c.space ++ front → c.enclosing = front ++ c'.enclosing → c = c' := by
    intro c c' front hl hl' hspace henclosing
    obtain rfl := hl.eq_nil hl' hc hspace henclosing
    rw [List.append_nil] at hspace
    cases c
    cases c'
    simp_all
  rcases List.append_eq_append_iff.mp heq with ⟨front, hspace, henclosing⟩ |
    ⟨front, hspace, henclosing⟩
  · exact hboth h h' hspace henclosing
  · exact (hboth h' h hspace henclosing).symm

/-- Among the contexts that exist, a key belongs to one context and one name. -/
theorem Located.eq_of_cacheKey (h : ctx.Located shape) (h' : ctx'.Located shape)
    (hc : Charted shape) (hkey : BindState.cacheKey ctx name = BindState.cacheKey ctx' name') :
    ctx = ctx' ∧ name = name' := by
  obtain ⟨htext, hname⟩ := Prod.ext_iff.mp hkey
  have hpath := Path.text_injective (h.segments hc) (h'.segments hc) htext
  exact ⟨h.eq_of_container h' hc hpath, hname⟩

end TypeContext

namespace BindState

variable {s s' : BindState}

/-- What a name denotes depends on what lies where and on the directives. -/
theorem lookupUncached_of_lookup (hlookup : s'.image.lookup = s.image.lookup)
    (husings : s'.allUsings = s.allUsings) (ctx : TypeContext) (name : String) :
    s'.lookupUncached ctx name = s.lookupUncached ctx name := by
  have hchild : s'.image.child = s.image.child := by
    funext parent n
    unfold Image.child
    rw [hlookup]
  have hopen : s'.openType? name = s.openType? name := by
    unfold openType?
    rw [hchild]
  unfold lookupUncached lookupAlias? Image.nestedType?
  rw [hopen, hchild, husings]

theorem lookupUncached_congr (hshape : s'.image.shape = s.image.shape)
    (husings : s'.allUsings = s.allUsings) (ctx : TypeContext) (name : String) :
    s'.lookupUncached ctx name = s.lookupUncached ctx name :=
  lookupUncached_of_lookup (funext fun p => Image.lookup_congr hshape p) husings ctx name

end BindState

end Chunkwise
