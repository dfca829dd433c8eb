import Chunkwise.Proofs.Session.Binding

namespace Chunkwise

namespace Registry

def names (r : Registry) : List String := r.entries.map Prod.fst

theorem names_bind (entries : List (String × Variable)) (name : String) (v : Variable) :
    (Registry.bind name v entries).map Prod.fst =
      if name ∈ entries.map Prod.fst then entries.map Prod.fst
      else entries.map Prod.fst ++ [name] := by
  induction entries with
  | nil => simp [Registry.bind]
  | cons e rest ih =>
    obtain ⟨n, old⟩ := e
    unfold Registry.bind
    by_cases hn : n = name
    · simp [hn]
    · have hne : name ≠ n := fun h => hn h.symm
      rw [if_neg hn, List.map_cons, ih]
      by_cases hmem : name ∈ rest.map Prod.fst
      · simp [hmem]
      · simp [hmem, hne]

theorem names_register {r : Registry} {log : List String} (h : r.names = log.eraseDups) (st : Store)
    (name : String) (v : Variable) : (r.register st name v).1.names = (log ++ [name]).eraseDups := by
  have hnames : (r.register st name v).1.names =
      if name ∈ r.names then r.names else r.names ++ [name] := names_bind r.entries name v
  rw [hnames, h, List.eraseDups_append]
  by_cases hmem : name ∈ log
  · simp [List.removeAll, hmem]
  · simp [List.removeAll, hmem, List.eraseDups_cons]

end Registry

namespace Session

theorem names_registerAll {r : Registry} {log : List String} (h : r.names = log.eraseDups)
    (st : Store) (vs : List PendingVariable) :
    (registerAll vs r st).1.names = (log ++ vs.map PendingVariable.name).eraseDups := by
  induction vs generalizing r st log with
  | nil =>
    have hnone : (registerAll [] r st).1 = r := rfl
    simpa [hnone] using h
  | cons v vs ih =>
    have hfirst := Registry.names_register h st v.name ⟨v.slot, v.isReadonly⟩
    rw [registerAll_cons, ih hfirst]
    simp

/-- The variables that compiling a chunk declares, none if it fails. -/
def declares (s : Session) (src : Source) (chunkClass : ChunkClass) : List PendingVariable :=
  match s.binding? src chunkClass with
  | some (_, b) => b.newVariables
  | none => []

/-- These are the variables declared so far: the registry lists their names in order of first
declaration, and a variable that is not the registered one of its name is out of use. -/
structure Records (s : Session) (log : List PendingVariable) : Prop where
  names : s.registry.names = (log.map PendingVariable.name).eraseDups
  replaced : ∀ x ∈ log, s.registry.lookup x.name = some ⟨x.slot, x.isReadonly⟩ ∨
    s.store.isReleased x.slot = true

variable {s : Session} {log : List PendingVariable} {b : BindState} {code : Code}

theorem slot_of_isReleased {st : Store} {i : Nat} (h : st.isReleased i = true) :
    ∃ slot, st.slots[i]? = some slot ∧ slot.released = true := by
  unfold Store.isReleased at h
  split at h
  · next slot hslot => exact ⟨slot, hslot, h⟩
  · cases h

theorem isReleased_commit (h : b.Delivers s code) {i : Nat} (hi : s.store.isReleased i = true) :
    (s.commit b).store.isReleased i = true := by
  obtain ⟨slot, hslot, hreleased⟩ := slot_of_isReleased hi
  have hbound := h.store.slot hslot
  have hcommit := commit_slot h i
  rw [hbound] at hcommit
  cases hf : frees s.registry b.newVariables i with
  | false => simpa [Store.isReleased, hcommit, hf] using hreleased
  | true => simp [Store.isReleased, hcommit, hf, Slot.freed]

theorem isReleased_of_redeclared (hs : s.Valid) (h : b.Delivers s code) {v : PendingVariable}
    (hv : v ∈ b.newVariables) {w : Variable} (hw : s.registry.lookup v.name = some w) :
    (s.commit b).store.isReleased w.slot = true := by
  have hf : frees s.registry b.newVariables w.slot = true := frees_iff.mpr ⟨v, hv, w, hw, rfl⟩
  obtain ⟨t, slot, hslot, -⟩ := hs.registered _ w hw
  have hcommit := commit_slot h w.slot
  rw [hf, if_pos rfl, h.store.slot hslot] at hcommit
  simp [Store.isReleased, hcommit, Slot.freed]

theorem Records.commit (hr : s.Records log) (hs : s.Valid) (h : b.Delivers s code) :
    (s.commit b).Records (log ++ b.newVariables) where
  names := by
    rw [List.map_append]
    exact names_registerAll hr.names b.store b.newVariables
  replaced x hx := by
    rcases List.mem_append.mp hx with hx | hx
    · rcases hr.replaced x hx with hcurrent | hreleased
      · by_cases hagain : ∃ v ∈ b.newVariables, v.name = x.name
        · obtain ⟨v, hv, hname⟩ := hagain
          exact .inr (isReleased_of_redeclared hs h hv (hname ▸ hcurrent))
        · have hne : ∀ v ∈ b.newVariables, v.name ≠ x.name :=
            fun v hv hname => hagain ⟨v, hv, hname⟩
          exact .inl ((lookup_registerAll_of_not_mem hne).trans hcurrent)
      · exact .inr (isReleased_commit h hreleased)
    · exact .inl (lookup_registerAll_of_mem h.names hx)

theorem Records.compile (hr : s.Records log) (hs : s.Valid) (src : Source) (chunkClass : ChunkClass)
    (mode : ParseMode) :
    (s.compile src chunkClass mode).session.Records (log ++ s.declares src chunkClass) := by
  rw [compile_session hs]
  unfold declares
  cases hb : s.binding? src chunkClass with
  | none => simpa [withBinding] using hr
  | some x => exact hr.commit hs ((bound_of_binding? hb).delivers hs)

theorem Records.later (hr : s.Records log) {st : Store} (hl : s.store.Later st) :
    ({ s with store := st } : Session).Records log where
  names := hr.names
  replaced x hx := by
    rcases hr.replaced x hx with hcurrent | hreleased
    · exact .inl hcurrent
    · obtain ⟨slot, hslot, hr⟩ := slot_of_isReleased hreleased
      obtain ⟨slot', hslot', hface⟩ := hl.slot hslot
      have hreleased' : slot'.released = true := (Slot.released_of_face hface).trans hr
      exact .inr (by simp [Store.isReleased, hslot', hreleased'])

theorem Valid.liveSlots (hs : s.Valid) {name : String} {v : Variable}
    (hv : s.registry.lookup name = some v) :
    s.store.isReleased v.slot = false ∧ s.registry.liveSlots s.store name = 1 := by
  obtain ⟨t, slot, hslot, -, hlive⟩ := hs.registered name v hv
  have hreleased : s.store.isReleased v.slot = false := by
    simpa [Store.isReleased, hslot] using hlive rfl
  exact ⟨hreleased, by simp [Registry.liveSlots, hv, hreleased]⟩

end Session

namespace History

/-- A history in which these variables were declared, in this order. -/
inductive Declared : History → List PendingVariable → Prop where
  | start (settings : Settings) : Declared (start settings) []
  | compile {h : History} {log : List PendingVariable} (declared : Declared h log) (src : Source)
      (chunkClass : ChunkClass) (mode : ParseMode) :
      Declared (h.compile src chunkClass mode) (log ++ h.session.declares src chunkClass)
  | run {h : History} {log : List PendingVariable} (declared : Declared h log) {u : CompiledUnit}
      (mem : u ∈ h.units) (limits : RunLimits) : Declared (h.run u limits) log

variable {h : History} {log : List PendingVariable}

theorem Reachable.declared (hr : h.Reachable) : ∃ log, h.Declared log := by
  induction hr with
  | start settings => exact ⟨[], .start settings⟩
  | compile _ src chunkClass mode ih =>
    obtain ⟨log, hlog⟩ := ih
    exact ⟨_, .compile hlog src chunkClass mode⟩
  | run _ hmem limits ih =>
    obtain ⟨log, hlog⟩ := ih
    exact ⟨log, .run hlog hmem limits⟩

theorem Declared.reachable (hd : h.Declared log) : h.Reachable := by
  induction hd with
  | start settings => exact .start settings
  | compile _ src chunkClass mode ih => exact .compile ih src chunkClass mode
  | run _ hmem limits ih => exact .run ih hmem limits

theorem Declared.records (hd : h.Declared log) : h.session.Records log := by
  induction hd with
  | start settings => exact ⟨rfl, fun x hx => by cases hx⟩
  | compile hd src chunkClass mode ih =>
    exact ih.compile hd.reachable.valid.session src chunkClass mode
  | run hd hmem limits ih => exact ih.later (outcome_later _ _ limits)

/-- Storage of variables is neither shared nor dead. Whatever variables were declared on the way, the
registered ones are in use and have slots of their own, all others are out of use, and names are
listed in the order of their first declaration. -/
theorem Reachable.variables_live_and_apart (hr : h.Reachable) :
    (∀ name v, h.session.registry.lookup name = some v →
      h.session.store.isReleased v.slot = false ∧
        h.session.registry.liveSlots h.session.store name = 1) ∧
    (∀ name name' v v', h.session.registry.lookup name = some v →
      h.session.registry.lookup name' = some v' → name ≠ name' → v.slot ≠ v'.slot) ∧
    (∃ log, h.Declared log) ∧
    ∀ log, h.Declared log →
      (∀ x ∈ log, (h.session.registry.lookup x.name).map Variable.slot ≠ some x.slot →
        h.session.store.isReleased x.slot = true) ∧
      h.session.registry.names = (log.map PendingVariable.name).eraseDups := by
  have hs := hr.valid.session
  refine ⟨fun name v hv => hs.liveSlots hv, ?_, hr.declared, fun log hd => ⟨?_, hd.records.names⟩⟩
  · intro name name' v v' hv hv' hne heq
    exact hne (hs.distinct name name' v v' hv hv' heq)
  · intro x hx hother
    rcases hd.records.replaced x hx with hcurrent | hreleased
    · rw [hcurrent] at hother
      exact absurd rfl hother
    · exact hreleased

/-- A session in which `x` is declared twice. -/
def redeclared : History :=
  (blank.compile ⟨"test", "int x = 1;"⟩ .statements .silent).compile
    ⟨"test", "int y = 2; double x = 3;"⟩ .statements .silent

theorem redeclared_log : redeclared.Declared [⟨"x", 2, false⟩, ⟨"y", 3, false⟩, ⟨"x", 4, false⟩] := by
  have hlog := Declared.compile (.compile (.start { Settings.default with defaultUsings := [] })
    ⟨"test", "int x = 1;"⟩ .statements .silent) ⟨"test", "int y = 2; double x = 3;"⟩ .statements .silent
  refine cast (congrArg redeclared.Declared ?_) hlog
  decide +kernel

/-- The first slot of `x` is out of use, and `x` keeps its place in the list. -/
theorem variables_live_and_apart_redeclared :
    redeclared.session.store.isReleased 2 = true ∧ redeclared.session.registry.names = ["x", "y"] := by
  have hreachable : redeclared.Reachable := .compile (.compile (.start _) _ _ _) _ _ _
  have hspec := hreachable.variables_live_and_apart.2.2.2 _ redeclared_log
  exact ⟨hspec.1 ⟨"x", 2, false⟩ (by decide) (by decide +kernel), hspec.2.trans (by decide)⟩

end History

end Chunkwise
