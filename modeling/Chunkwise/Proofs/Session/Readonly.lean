import Chunkwise.Proofs.Readonly.Bodies
import Chunkwise.Proofs.Session.Chronicle

/-!
The constants of a session are the variables that were declared `const` and the read-only static
fields. Its guard closes their slots and leaves all others open, and all code of the session is permitted
by this guard. Code that was bound before the constant was declared is no exception: a guard that
permits what a later chunk may write permits what an earlier one may write, so the guard of the last
session does for all chunks.
-/
namespace Chunkwise

/-- Whether some code belongs to the type: initial values of fields, or the bodies of methods and
constructors. Built-in types have none. -/
def TypeDef.HasCode (d : TypeDef) : Prop :=
  d.inits ≠ [] ∨ ∃ m ∈ d.methods ++ d.constructors, ∃ code, m.body = .code code

namespace Guard

def PermitsChunk (g : Guard) : BoundChunk → Prop
  | .statements unit code created =>
    ∃ w, g.PermitsAllAtTop .top unit.stmts created code.body w
  | .declarations unit code => g.PermitsStatics unit code

/-- All code is permitted: that of the chunks, and that of the types that they declare. -/
structure PermitsAll (g : Guard) (im : Image) (log : List BoundChunk) : Prop where
  chunks : ∀ e ∈ log, g.PermitsChunk e
  types : ∀ p d, im.typeDef? p = some d → d.HasCode → ∃ unit code x,
    BoundChunk.declarations unit code ∈ log ∧ x ∈ unit.types ∧ x.path = p ∧ g.PermitsType x d

end Guard

namespace Session

variable {s : Session} {e : BoundChunk} {b : BindState} {vs : List PendingVariable} {g : Guard}

/-- The slot of a constant among these variables or of a read-only static field. -/
def ReadonlySlot (s : Session) (vs : List PendingVariable) (i : Nat) : Prop :=
  (∃ v ∈ vs, v.slot = i ∧ v.isReadonly = true) ∨ s.image.Marks i true

/-- The guard of a session in which these variables were declared. -/
def guard (s : Session) (vs : List PendingVariable) : Guard :=
  ⟨s.image, s.store.Offers false, fun i => ¬ s.ReadonlySlot vs i⟩

theorem Enters.created (h : s.Enters e b) (hs : s.Valid) : b.newVariables = e.created := by
  cases h with
  | statements => rfl
  | declarations _ hrun _ =>
    obtain ⟨ds, ps, s₁, s₂, s₃, hstages⟩ := Bind.exists_stages hs hrun
    exact hstages.filled.ongoing.newVariables

theorem Enters.registry (h : s.Enters e b) (hs : s.Valid) : b.registry = s.registry := by
  cases h with
  | statements hrun _ => exact ((Bind.statementUnit_hosted hs _).of_run rfl hrun).2.2.registry
  | declarations _ hrun _ =>
    obtain ⟨ds, ps, s₁, s₂, s₃, hstages⟩ := Bind.exists_stages hs hrun
    exact hstages.filled.ongoing.registry

/-- A static field that is new has a slot that no other static field has. -/
theorem Enters.marks (h : s.Enters e b) (hs : s.Valid) {i : Nat} {isReadonly : Bool}
    (hm : b.image.Marks i isReadonly) : s.image.Marks i isReadonly ∨
      s.store.slots.size ≤ i ∧ ∀ other, b.image.Marks i other → other = isReadonly := by
  cases h with
  | statements hrun _ =>
    have himage := ((Bind.statementUnit_hosted hs _).of_run rfl hrun).2.2.image
    exact .inl (himage ▸ hm)
  | declarations _ hrun _ =>
    obtain ⟨ds, ps, s₁, s₂, s₃, hstages⟩ := Bind.exists_stages hs hrun
    exact hstages.filled.ongoing.marks i isReadonly hm

/-- Each of these variables has a slot of its own, which is not that of a static field, and the static
fields of one slot are all read-only or all not. The registered variables are among them. -/
structure Allots (s : Session) (vs : List PendingVariable) : Prop where
  registered : ∀ name v, s.registry.lookup name = some v → ⟨name, v.slot, v.isReadonly⟩ ∈ vs
  offered : ∀ v ∈ vs, ∃ t, s.store.Offers false v.slot t
  distinct : (vs.map PendingVariable.slot).Nodup
  apart : ∀ v ∈ vs, ∀ t, ¬ s.image.StaticSlot v.slot t
  marks : ∀ i r r', s.image.Marks i r → s.image.Marks i r' → r = r'

theorem Allots.commit (h : s.Allots vs) (hs : s.Valid) (he : s.Enters e b) :
    (s.commit b).Allots (vs ++ e.created) := by
  have hdelivers := he.delivers hs
  have hold : ∀ v ∈ vs, v.slot < s.store.slots.size := fun v hv => by
    obtain ⟨t, ht⟩ := h.offered v hv
    exact ht.lt
  rw [← he.created hs]
  refine ⟨fun name w hw => ?_, fun v hv => ?_, ?_, fun v hv t ht => ?_, fun i r r' hr hr' => ?_⟩
  · by_cases hname : ∃ v ∈ b.newVariables, v.name = name
    · obtain ⟨v, hv, rfl⟩ := hname
      have hnew : (s.commit b).registry.lookup v.name = some ⟨v.slot, v.isReadonly⟩ :=
        lookup_registerAll_of_mem hdelivers.names hv
      obtain rfl := Option.some.inj (hnew.symm.trans hw)
      exact List.mem_append_right _ hv
    · have hne : ∀ v ∈ b.newVariables, v.name ≠ name := fun v hv heq => hname ⟨v, hv, heq⟩
      exact List.mem_append_left _
        (h.registered name w ((lookup_registerAll_of_not_mem hne).symm.trans hw))
  · rcases List.mem_append.mp hv with hv | hv
    · obtain ⟨t, ht⟩ := h.offered v hv
      exact ⟨t, offers_commit hdelivers (hdelivers.store.offers ht) (by simp)⟩
    · obtain ⟨t, ht⟩ := offers_new hs hdelivers hv
      exact ⟨t, ht.lenient⟩
  · rw [List.map_append]
    refine List.nodup_append.mpr ⟨h.distinct, hdelivers.slots, fun i hi j hj hij => ?_⟩
    obtain ⟨v, hv, rfl⟩ := List.mem_map.mp hi
    obtain ⟨w, hw, rfl⟩ := List.mem_map.mp hj
    have := hold v hv
    have := (hdelivers.fresh w hw).1
    omega
  · have ht' : b.image.StaticSlot v.slot t := Image.staticSlot_commit.mp ht
    rcases List.mem_append.mp hv with hv | hv
    · rcases (hdelivers.statics _ t ht').2 with hbefore | hge
      · exact h.apart v hv t hbefore
      · have := hold v hv
        omega
    · exact hdelivers.apart v hv t ht'
  · have hbefore : ∀ {r}, (s.commit b).image.Marks i r → b.image.Marks i r := by
      rintro r ⟨p, d, f, hd, hf⟩
      exact ⟨p, d, f, (Image.typeDef?_commit _ _ _ p).symm.trans hd, hf⟩
    rcases he.marks hs (hbefore hr) with hm | ⟨-, honly⟩
    · rcases he.marks hs (hbefore hr') with hm' | ⟨-, honly⟩
      · exact h.marks i r r' hm hm'
      · exact honly r (hbefore hr)
    · exact (honly r' (hbefore hr')).symm

theorem Allots.later (h : s.Allots vs) {st : Store} (hl : s.store.Later st) :
    ({ s with store := st } : Session).Allots vs where
  registered := h.registered
  offered v hv := by
    obtain ⟨t, ht⟩ := h.offered v hv
    exact ⟨t, ht.later hl⟩
  distinct := h.distinct
  apart := h.apart
  marks := h.marks

/-- The guard knows the session and opens the slots of what is not read-only. -/
structure Spanned (s : Session) (vs : List PendingVariable) (g : Guard) : Prop where
  image : s.image.Grows g.image
  slots : ∀ i t, s.store.Offers false i t → g.slots i t
  statics : ∀ i, s.image.Marks i false → g.opens i
  declared : ∀ v ∈ vs, v.isReadonly = false → g.opens v.slot

theorem Allots.spanned (h : s.Allots vs) : s.Spanned vs (s.guard vs) where
  image := .refl _
  slots _ _ ho := ho
  statics i hm := by
    obtain ⟨t, ht⟩ := hm.staticSlot
    rintro (⟨v, hv, rfl, -⟩ | hm')
    · exact h.apart v hv t ht
    · exact Bool.false_ne_true (h.marks i _ _ hm hm')
  declared v hv hr := by
    rintro (⟨w, hw, hslot, hr'⟩ | hm)
    · obtain rfl := List.inj_on_of_nodup_map h.distinct hw hv hslot
      exact Bool.false_ne_true (hr.symm.trans hr')
    · obtain ⟨t, ht⟩ := hm.staticSlot
      exact h.apart v hv t ht

theorem Spanned.before {ws : List PendingVariable} {code : Code}
    (h : (s.commit b).Spanned (vs ++ ws) g) (hb : b.Delivers s code) : s.Spanned vs g where
  image := (grows_commit hb).trans h.image
  slots i t ho := h.slots i t (offers_commit hb (hb.store.offers ho) (by simp))
  statics i hm := h.statics i ((grows_commit hb).marks hm)
  declared v hv := h.declared v (List.mem_append_left _ hv)

theorem Spanned.unrun {st : Store} (h : ({ s with store := st } : Session).Spanned vs g)
    (hl : s.store.Later st) : s.Spanned vs g where
  image := h.image
  slots i t ho := h.slots i t (ho.later hl)
  statics := h.statics
  declared := h.declared

theorem Spanned.covers (h : (s.commit b).Spanned (vs ++ e.created) g) (ha : s.Allots vs)
    (hs : s.Valid) (he : s.Enters e b) : g.Covers b := by
  have hdelivers := he.delivers hs
  have hgrows := Image.grows_commit b.image b.usings b.declared
  refine ⟨hgrows.trans h.image, fun i t ho => ?_, fun i hm => h.statics i (hgrows.marks hm), ?_, ?_⟩
  · exact h.slots i t (offers_commit hdelivers ho (by simp))
  · intro name v hv hr
    rw [he.registry hs] at hv
    exact h.declared _ (List.mem_append_left _ (ha.registered name v hv)) hr
  · intro v hv hr
    rw [he.created hs] at hv
    exact h.declared v (List.mem_append_right _ hv) hr

theorem Enters.permits (he : s.Enters e b) (hs : s.Valid) (hg : g.Covers b) : g.PermitsChunk e := by
  cases he with
  | statements hrun hclean => exact (statementUnit_permits hs hrun hclean hg).2
  | declarations hplain hrun hclean =>
    exact (declarationUnit_permits hs hplain hrun hclean hg).2.2

/-- A type after a chunk is one from before or one that the chunk declares, with permitted code. -/
theorem Enters.types (he : s.Enters e b) (hs : s.Valid) (hg : g.Covers b) {p : Path} {d : TypeDef}
    (hd : b.image.typeDef? p = some d) : s.image.typeDef? p = some d ∨
      ∃ unit code x, e = .declarations unit code ∧ x ∈ unit.types ∧ x.path = p ∧
        g.PermitsType x d := by
  cases he with
  | statements hrun _ =>
    have himage := ((Bind.statementUnit_hosted hs _).of_run rfl hrun).2.2.image
    exact .inl (himage ▸ hd)
  | declarations hplain hrun hclean =>
    obtain ⟨ds, ps, s₁, s₂, s₃, hstages⟩ := Bind.exists_stages hs hrun
    obtain ⟨rfl, -⟩ := hstages.listed hplain
    refine (hstages.filled.ongoing.new p d hd).imp_right ?_
    rintro ⟨x, hx, rfl⟩
    obtain ⟨-, htypes, -⟩ := declarationUnit_permits hs hplain hrun hclean hg
    exact ⟨_, _, x, rfl, hx, rfl, htypes x hx d hd⟩

theorem Enters.permitsAll {log : List BoundChunk} (he : s.Enters e b) (hs : s.Valid)
    (hg : g.Covers b) (hall : g.PermitsAll s.image log) :
    g.PermitsAll (s.commit b).image (log ++ [e]) where
  chunks e' he' := by
    rcases List.mem_append.mp he' with he' | he'
    · exact hall.chunks e' he'
    · exact List.mem_singleton.mp he' ▸ he.permits hs hg
  types p d hd hcode := by
    have hd' : b.image.typeDef? p = some d := (Image.typeDef?_commit _ _ _ p).symm.trans hd
    rcases he.types hs hg hd' with hold | ⟨unit, code, x, rfl, hx⟩
    · obtain ⟨unit, code, x, hmem, hx⟩ := hall.types p d hold hcode
      exact ⟨unit, code, x, List.mem_append_left _ hmem, hx⟩
    · exact ⟨unit, code, x, by simp, hx⟩

end Session

namespace Builtin

theorem not_hasCode {p : Path} {d : TypeDef} (h : image.typeDef? p = some d) : ¬ d.HasCode := by
  rcases typeDef?_image h with rfl | rfl
  · simp [TypeDef.HasCode, console, TypeDef.bare, native]
  · simp [TypeDef.HasCode, math, TypeDef.bare, native]

theorem isReadonly_of_marks {i : Nat} {isReadonly : Bool} (h : image.Marks i isReadonly) :
    isReadonly = true := by
  obtain ⟨p, d, f, hd, hf, -, rfl⟩ := h
  rcases typeDef?_image hd with rfl | rfl
  · cases hf
  · revert f
    decide

end Builtin

theorem Evaluator.ofSettings_allots (settings : Settings) :
    (ofSettings settings).session.Allots [] := by
  have hmarks : ∀ {i r}, (ofSettings settings).session.image.Marks i r → Builtin.image.Marks i r := by
    rintro i r ⟨p, d, f, hd, hf⟩
    exact ⟨p, d, f, (Image.typeDef?_commit _ _ _ p).symm.trans hd, hf⟩
  refine ⟨fun name v hv => (by cases hv), by simp, List.nodup_nil, by simp, fun i r r' hr hr' => ?_⟩
  exact (Builtin.isReadonly_of_marks (hmarks hr)).trans
    (Builtin.isReadonly_of_marks (hmarks hr')).symm

namespace History

variable {h : History} {log : List BoundChunk}

theorem Chronicle.allots (hc : h.Chronicle log) :
    h.session.Allots (log.flatMap BoundChunk.created) := by
  induction hc with
  | start settings => exact Evaluator.ofSettings_allots settings
  | compile hc src chunkClass mode ih =>
    have hv := hc.reachable.valid
    rcases compile_chronicled hv src chunkClass mode with
      ⟨e, b, he, henters, hsession, -⟩ | ⟨hnone, hsession, -⟩
    · rw [he, hsession]
      simpa using ih.commit hv.session henters
    · rw [hnone, hsession]
      simpa using ih
  | run hc hmem limits ih => exact ih.later (outcome_later _ _ limits)

/-- Whatever guard spans the session permits all code of its past. -/
theorem Chronicle.permits (hc : h.Chronicle log) {g : Guard}
    (hg : h.session.Spanned (log.flatMap BoundChunk.created) g) :
    g.PermitsAll h.session.image log := by
  induction hc with
  | start settings =>
    refine ⟨by simp, fun p d hd hcode => ?_⟩
    have hbuiltin : Builtin.image.typeDef? p = some d := (Image.typeDef?_commit _ _ _ p).symm.trans hd
    exact (Builtin.not_hasCode hbuiltin hcode).elim
  | compile hc src chunkClass mode ih =>
    have hv := hc.reachable.valid
    rcases compile_chronicled hv src chunkClass mode with
      ⟨e, b, he, henters, hsession, -⟩ | ⟨hnone, hsession, -⟩
    · rw [he, hsession] at hg ⊢
      simp only [Option.toList_some, List.flatMap_append, List.flatMap_singleton] at hg
      have hcovers := hg.covers hc.allots hv.session henters
      exact henters.permitsAll hv.session hcovers (ih (hg.before (henters.delivers hv.session)))
    · rw [hnone, hsession] at hg ⊢
      simpa using ih (by simpa using hg)
  | run hc hmem limits ih => exact ih (hg.unrun (outcome_later _ _ limits))

/-- Read-only storage is written by its declaration only. Whatever was compiled on the way, the code of
all units, methods, constructors and initial values is permitted by the guard of the session: it
writes the slot of a constant or of a read-only static field in the assignment of its own declarator,
a constant local likewise, and a read-only field of an object only through `this` in a constructor of
the object's type. -/
theorem Reachable.readonly_kept (hr : h.Reachable) :
    (∃ log, h.Chronicle log) ∧ ∀ log, h.Chronicle log →
      h.units.map CompiledUnit.code = log.map BoundChunk.code ∧
      (h.session.guard (log.flatMap BoundChunk.created)).PermitsAll h.session.image log :=
  ⟨hr.chronicle, fun _ hc => ⟨hc.units, hc.permits hc.allots.spanned⟩⟩

/-- A session with a constant of each kind, which its own code sets and reads. -/
def constants : History :=
  (blank.compile ⟨"test", "class P \x7b public static readonly int S = 5; " ++
      "public readonly int f = 1; public P(int v) \x7b this.f = v; \x7d \x7d"⟩ .declarations
        .silent).compile
    ⟨"test", "const int c = 1; int x = c; \x7b const int k = 2; x += k; \x7d"⟩ .statements .silent

theorem constants_chronicle : ∃ log, constants.Chronicle log ∧
    log.flatMap BoundChunk.created = [⟨"c", 3, true⟩, ⟨"x", 4, false⟩] ∧
    ((constants.session.image.typeDef? ["P"]).any fun d =>
      d.statics.any fun f => f.slot == 2 && f.isReadonly) = true := by
  refine ⟨_, .compile (.compile (.start { Settings.default with defaultUsings := [] }) _ _ _) _ _ _, ?_⟩
  decide +kernel

/-- The static field has slot 2 and the constant slot 3. Both are closed to all other code, and the slot
of the variable is not. -/
theorem readonly_kept_constants : ∃ log, constants.Chronicle log ∧
    (constants.session.guard [⟨"c", 3, true⟩, ⟨"x", 4, false⟩]).PermitsAll constants.session.image log ∧
    constants.session.ReadonlySlot [⟨"c", 3, true⟩, ⟨"x", 4, false⟩] 2 ∧
    constants.session.ReadonlySlot [⟨"c", 3, true⟩, ⟨"x", 4, false⟩] 3 ∧
    ¬ constants.session.ReadonlySlot [⟨"c", 3, true⟩, ⟨"x", 4, false⟩] 4 := by
  obtain ⟨log, hc, hvs, hfield⟩ := constants_chronicle
  obtain ⟨-, hkept⟩ := Reachable.readonly_kept hc.reachable
  obtain ⟨-, hall⟩ := hkept log hc
  have hallots := hc.allots
  rw [hvs] at hall hallots
  refine ⟨log, hc, hall, .inr ?_, .inl ⟨_, List.mem_cons_self, rfl, rfl⟩, ?_⟩
  · obtain ⟨d, hd, hany⟩ := (Option.any_eq_true _ _).mp hfield
    obtain ⟨f, hf, hslot⟩ := List.any_eq_true.mp hany
    simp only [Bool.and_eq_true, beq_iff_eq] at hslot
    exact ⟨["P"], d, f, hd, hf, hslot.1, hslot.2⟩
  · exact hallots.spanned.declared ⟨"x", 4, false⟩ (by simp) rfl

end History

end Chunkwise
