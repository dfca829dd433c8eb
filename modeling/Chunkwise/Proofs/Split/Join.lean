import Chunkwise.Proofs.Session.Binding
import Chunkwise.Proofs.Split.Host
import Mathlib.Data.List.Induction

/-!
A chunk in two parts has two seams. At its outset the first part is bound like a chunk of its own,
but its result does not count. Behind the first part the second one is bound like a chunk of its own
in the session that the first chunk has left, whatever running that chunk has made of the values in
storage.
-/
namespace Chunkwise

open Attempt

namespace NewVariable

variable (n : Nat) (vs : List NewVariable)

theorem pendings_names : (pendings n vs).map PendingVariable.name = vs.map NewVariable.name := by
  induction vs using List.reverseRecOn with
  | nil => rfl
  | append_singleton vs v ih => simp [pendings_concat, ih]

theorem lift_bindings (k : Nat) :
    ((bindings n vs).map fun x => (x.1, x.2.lift k)) = bindings n vs := by
  induction vs using List.reverseRecOn with
  | nil => rfl
  | append_singleton vs v ih =>
    rw [bindings_concat, List.map_cons, ih]
    rfl

/-- A name is bound to the variable that is to be registered for it, or to nothing. -/
theorem lookup_bindings_cases (name : String) :
    (∃ i v, vs[i]? = some v ∧ v.name = name ∧
      (bindings n vs).lookup name = some (.variable (n + i) v.type v.isReadonly) ∧
      (⟨name, n + i, v.isReadonly⟩ : PendingVariable) ∈ pendings n vs) ∨
    (∀ p ∈ pendings n vs, p.name ≠ name) ∧ (bindings n vs).lookup name = none := by
  induction vs using List.reverseRecOn with
  | nil => exact .inr ⟨fun p hp => (by cases hp), rfl⟩
  | append_singleton vs v ih =>
    rw [bindings_concat, pendings_concat]
    by_cases hname : name = v.name
    · subst hname
      exact .inl ⟨vs.length, v, by simp, rfl, List.lookup_cons_self, by simp⟩
    · rw [List.lookup_cons, beq_false_of_ne hname]
      rcases ih with ⟨i, w, hi, hw, hlookup, hmem⟩ | ⟨hfree, hlookup⟩
      · refine .inl ⟨i, w, ?_, hw, hlookup, by simp [hmem]⟩
        rw [List.getElem?_append_left (List.getElem?_eq_some_iff.mp hi).1, hi]
      · refine .inr ⟨fun p hp => ?_, hlookup⟩
        rcases List.mem_append.mp hp with hp | hp
        · exact hfree p hp
        · obtain rfl := List.mem_singleton.mp hp
          exact fun heq => hname heq.symm

end NewVariable

theorem Store.withVariables_nil (st : Store) (im : Image) : st.withVariables im [] = st := by
  simp [withVariables]

theorem Store.withVariables_slot (st : Store) (im : Image) {vs : List NewVariable} {i : Nat}
    {v : NewVariable} (hi : vs[i]? = some v) :
    (st.withVariables im vs).slots[st.slots.size + i]? = some (v.slot im) := by
  simp [withVariables, Array.getElem?_append_right, hi]

theorem Registry.meaning?_later {r : Registry} {st st' : Store} (h : st.Later st') (name : String) :
    r.meaning? st' name = r.meaning? st name := by
  unfold Registry.meaning?
  cases r.lookup name with
  | none => rfl
  | some v =>
    simp only [Option.bind_some]
    cases hslot : st.slots[v.slot]? with
    | some slot =>
      obtain ⟨slot', hslot', hface⟩ := h.slot hslot
      rw [hslot', Option.map_some, Option.map_some, Slot.type_of_face hface]
    | none =>
      cases hslot' : st'.slots[v.slot]? with
      | none => rfl
      | some slot' =>
        obtain ⟨slot, hback, -⟩ := h.slot_back hslot'
        rw [hback] at hslot
        cases hslot

theorem Store.Later.size {st st' : Store} (h : st.Later st') : st'.slots.size = st.slots.size := by
  simpa using congrArg Array.size h.slots

/-- The state has declared these variables since the chunk began. -/
structure BindState.HasDeclared (old : Session) (vs : List NewVariable) (t : BindState) : Prop where
  store : t.store = old.store.withVariables old.image vs
  added : t.newVariables = NewVariable.pendings old.store.slots.size vs
  names : (vs.map NewVariable.name).Nodup

/-- The names that are registered once the state is committed. -/
def BindState.namesAfter (old : Session) (t : BindState) : Registry :=
  (Session.registerAll t.newVariables old.registry t.store).1

section Names

variable {old : Session} {vs : List NewVariable} {t : BindState}

/-- After the commit a name means the variable that was bound to it, or what it meant before. -/
theorem BindState.HasDeclared.lookup_cases (h : t.HasDeclared old vs) (name : String) :
    (∃ i v, vs[i]? = some v ∧ v.name = name ∧
      (NewVariable.bindings old.store.slots.size vs).lookup name =
        some (.variable (old.store.slots.size + i) v.type v.isReadonly) ∧
      (t.namesAfter old).lookup name = some ⟨old.store.slots.size + i, v.isReadonly⟩) ∨
    (NewVariable.bindings old.store.slots.size vs).lookup name = none ∧
      (t.namesAfter old).lookup name = old.registry.lookup name := by
  unfold BindState.namesAfter
  rw [h.added]
  have hnodup : ((NewVariable.pendings old.store.slots.size vs).map PendingVariable.name).Nodup := by
    rw [NewVariable.pendings_names]
    exact h.names
  rcases NewVariable.lookup_bindings_cases old.store.slots.size vs name with
    ⟨i, v, hi, hv, hlookup, hmem⟩ | ⟨hfree, hlookup⟩
  · exact .inl ⟨i, v, hi, hv, hlookup, Session.lookup_registerAll_of_mem hnodup hmem⟩
  · exact .inr ⟨hlookup, Session.lookup_registerAll_of_not_mem hfree⟩

theorem Session.Valid.slot_lt {s : Session} (hs : s.Valid) {name : String} {v : Variable}
    (hv : s.registry.lookup name = some v) : v.slot < s.store.slots.size := by
  obtain ⟨t, ht⟩ := hs.registered name v hv
  exact ht.lt

end Names

namespace Seam

variable {old : Session} {vs : List NewVariable} {t : BindState}

/-- The seam at the outset of a chunk. -/
def outset (hold : old.Valid) : Seam where
  shift := 0
  keeps := false
  bindings := []
  pending := []
  whole := old.store
  wholeNames := old.registry
  rest := old.store
  restNames := old.registry
  size := rfl
  whole_slots _ _ hv := hold.slot_lt hv
  rest_slots _ _ hv := hold.slot_lt hv
  known _ := rfl
  meaning _ := rfl

/-- The seam behind a part that has declared these variables, once its chunk was committed and has
run. -/
def behind (hold : old.Valid) (h : t.HasDeclared old vs) {rest : Store} (hlater : t.store.Later rest) :
    Seam where
  shift := t.body.scopes.nextSlot
  keeps := true
  bindings := NewVariable.bindings old.store.slots.size vs
  pending := t.newVariables
  whole := t.store
  wholeNames := old.registry
  rest := rest
  restNames := t.namesAfter old
  size := hlater.size.symm
  whole_slots name v hv := by
    have := hold.slot_lt hv
    rw [h.store, Bind.withVariables_size]
    omega
  rest_slots name v hv := by
    rw [hlater.size, h.store, Bind.withVariables_size]
    rcases h.lookup_cases name with ⟨i, w, hi, -, -, hafter⟩ | ⟨-, hafter⟩
    · have := (List.getElem?_eq_some_iff.mp hi).1
      obtain rfl : ⟨old.store.slots.size + i, w.isReadonly⟩ = v := by simpa [hafter] using hv
      simpa using this
    · have := hold.slot_lt (hafter ▸ hv)
      omega
  known name := by
    rcases h.lookup_cases name with ⟨i, w, -, -, hlookup, hafter⟩ | ⟨hlookup, hafter⟩
    · rw [hlookup, hafter]
      rfl
    · rw [hlookup, hafter]
      rfl
  meaning name := by
    rw [Registry.meaning?_later hlater]
    rcases h.lookup_cases name with ⟨i, w, hi, -, hlookup, hafter⟩ | ⟨hlookup, hafter⟩
    · rw [hlookup, Option.map_some, Option.some_or, Registry.meaning?, hafter, Option.bind_some,
        h.store, Store.withVariables_slot _ _ hi]
      rfl
    · rw [hlookup, Option.map_none, Option.none_or, Registry.meaning?, Registry.meaning?, hafter]

end Seam

theorem BindState.remembers_start (im : Image) (r : Registry) (st : Store) :
    (BindState.start im r st).Remembers := fun _ _ h => by cases h

section States

variable {old : Session} {vs : List NewVariable} {s t : BindState}

theorem Session.outset_twin (hold : old.Valid) :
    old.bindStart.Twin (Seam.outset hold) [] old.bindStart where
  image := rfl
  usings := rfl
  issues := rfl
  names := ⟨rfl, rfl⟩
  store := by
    rw [Store.withVariables_nil, Store.withVariables_nil]
    exact ⟨rfl, rfl⟩
  added := ⟨rfl, rfl⟩
  body := ⟨rfl, rfl⟩
  root := rfl
  cache := ⟨BindState.remembers_start _ _ _, BindState.remembers_start _ _ _⟩

/-- What the first chunk has declared is what the whole chunk has declared so far. -/
theorem BindState.Twin.hasDeclared {hold : old.Valid} (ht : s.Twin (Seam.outset hold) vs t)
    (hs : s.Hosted old) : t.HasDeclared old vs where
  store := by
    rw [ht.store.2, ← ht.image, hs.image]
    rfl
  added := ht.added.2
  names := by
    rw [← NewVariable.pendings_names old.store.slots.size vs]
    have hnames := hs.names
    rw [ht.added.1] at hnames
    exact hnames

/-- Behind the first part the second one starts like a chunk of its own. -/
theorem BindState.Twin.behind {hold : old.Valid} (ht : s.Twin (Seam.outset hold) vs t)
    (htop : t.body.scopes.inner = []) (hs : s.Hosted old) (hclean : s.issues.hasAny = false)
    {rest : Store} (hlater : t.store.Later rest) :
    s.Twin (Seam.behind hold (ht.hasDeclared hs) hlater) []
      (.start old.image (t.namesAfter old) rest) where
  image := hs.image
  usings := hs.usings
  issues := hclean
  names := ⟨hs.registry, rfl⟩
  store := by
    rw [Store.withVariables_nil, Store.withVariables_nil]
    refine ⟨?_, rfl⟩
    exact ht.store.1.trans ht.store.2.symm
  added := by
    refine ⟨?_, rfl⟩
    rw [ht.added.1, ← ht.added.2]
    exact (List.append_nil t.newVariables).symm
  body := by
    refine ⟨?_, rfl⟩
    rw [ht.body.1]
    refine congrArg BodyContext.hostWith ?_
    simp only [Scopes.behind, Scope.lift, htop, ht.root, NewVariable.lift_bindings]
    simp [Seam.outset, Seam.behind, BindState.start, BodyContext.host, Scopes.ofKind]
  root := rfl
  cache := ⟨ht.cache.1, BindState.remembers_start _ _ _⟩

end States

namespace Bind

variable {old : Session} {xs ys : List Stmt}

/-- The second part of a whole chunk that ended in `b`, bound as a chunk of its own behind a first
chunk that ended in `t`, with the storage that running it has left. -/
structure SecondPart (old : Session) (t b : BindState) (ys : List Stmt) (rest : Store)
    (code : List BoundStmt) (t' : BindState) : Prop where
  run : hostStmts ys (.start old.image (t.namesAfter old) rest) = (some code, t')
  clean : t'.issues.hasAny = false
  nextSlot : b.body.scopes.nextSlot = t.body.scopes.nextSlot + t'.body.scopes.nextSlot
  store : ∃ vs, b.store = t.store.withVariables old.image vs ∧
    t'.store = rest.withVariables old.image vs
  added : b.newVariables = t.newVariables ++ t'.newVariables

theorem hostStmts_append_run {s b : BindState} {body : List BoundStmt} (hys : ys ≠ [])
    (hrun : hostStmts (xs ++ ys) s = (some body, b)) :
    ∃ bound more s₁, hostPart false xs s = (some bound, s₁) ∧ hostStmts ys s₁ = (some more, b) ∧
      body = bound ++ more := by
  rw [hostStmts_append hys] at hrun
  simp only [Bind.bind, Attempt.bind, Pure.pure, Attempt.pure] at hrun
  rcases hfirst : hostPart false xs s with ⟨_ | bound, s₁⟩
  · simp [hfirst] at hrun
  · rcases hsecond : hostStmts ys s₁ with ⟨_ | more, s₂⟩
    · simp [hfirst, hsecond] at hrun
    · simp only [hfirst, hsecond] at hrun
      cases hrun
      exact ⟨bound, more, s₁, rfl, hsecond, rfl⟩

variable {s₁ t b : BindState} {vs : List NewVariable} {Δ : Locals}

/-- The first part of a whole chunk as a chunk of its own. -/
theorem hostPart_first (hold : old.Valid) {bound : List BoundStmt}
    (hrun : hostPart false xs old.bindStart = (some bound, s₁)) (hclean : s₁.issues.hasAny = false) :
    ∃ first t vs, hostStmts xs old.bindStart = (some first, t) ∧
      bound = BoundStmt.liftAll 0 false first ∧ s₁.Twin (Seam.outset hold) vs t ∧
      t.body.scopes.inner = [] := by
  have hfollows := hostPart_follows (g := Seam.outset hold) hold xs (BindState.start_hosted old)
    (BindState.start_at hold) (Session.outset_twin hold) rfl
  change Follows _ _ (hostPart false xs old.bindStart) (hostStmts xs old.bindStart) at hfollows
  rw [hrun] at hfollows
  obtain ⟨first, t, vs, hchunk, hcode, htwin, htop⟩ := hfollows.result hclean
  refine ⟨first, t, vs, hchunk, ?_, htwin, htop⟩
  rw [hcode, BoundStmt.liftAll_eq_map]
  rfl

/-- The second part of a whole chunk as a chunk of its own. -/
theorem hostStmts_second {hold : old.Valid} (h₁ : s₁.Hosted old) (hat₁ : s₁.At (hostContext s₁) Δ)
    (hclean₁ : s₁.issues.hasAny = false) (htwin : s₁.Twin (Seam.outset hold) vs t)
    (htop : t.body.scopes.inner = []) {more : List BoundStmt}
    (hrun : hostStmts ys s₁ = (some more, b)) (hclean : b.issues.hasAny = false) {rest : Store}
    (hlater : t.store.Later rest) : ∃ second t', SecondPart old t b ys rest second t' ∧
      more = BoundStmt.liftAll t.body.scopes.nextSlot true second := by
  have hb := (hostStmts_hosts hold ys h₁ hat₁).1
  rw [hrun] at hb
  have hfollows := hostPart_follows hold ys h₁ hat₁ (htwin.behind htop h₁ hclean₁ hlater) rfl
  change Follows _ _ (hostPart true ys s₁) _ at hfollows
  rw [hostPart_last, hrun] at hfollows
  obtain ⟨second, t', vs', hchunk, hcode, htwin', -⟩ := hfollows.result hclean
  have himage : t'.image = old.image := htwin'.image.symm.trans hb.image
  have hstore := htwin'.store
  rw [himage] at hstore
  refine ⟨second, t', ⟨hchunk, htwin'.issues.symm.trans hclean, ?_, ⟨vs', hstore⟩, ?_⟩, ?_⟩
  · rw [htwin'.body.1]
    rfl
  · rw [htwin'.added.1, htwin'.added.2]
    rfl
  · rw [hcode, BoundStmt.liftAll_eq_map]
    rfl

/-- A chunk without problems is bound in two parts: the first one as a chunk of its own, and then the
second one, in whatever storage the first chunk leaves when it runs. -/
theorem hostStmts_parts (hold : old.Valid) (hys : ys ≠ []) {body : List BoundStmt}
    (hrun : hostStmts (xs ++ ys) old.bindStart = (some body, b))
    (hclean : b.issues.hasAny = false) :
    ∃ first t vs, hostStmts xs old.bindStart = (some first, t) ∧ t.issues.hasAny = false ∧
      t.HasDeclared old vs ∧ ∀ rest, t.store.Later rest → ∃ second t',
        SecondPart old t b ys rest second t' ∧ body = BoundStmt.liftAll 0 false first ++
          BoundStmt.liftAll t.body.scopes.nextSlot true second := by
  obtain ⟨bound, more, s₁, hfirst, hsecond, rfl⟩ := hostStmts_append_run hys hrun
  have hhosts := hostPart_hosts hold false xs (BindState.start_hosted old) (BindState.start_at hold)
  change Hosts old _ _ (hostPart false xs old.bindStart) _ at hhosts
  rw [hfirst] at hhosts
  obtain ⟨h₁, -, Δ, -, hat₁, -⟩ := hhosts
  -- a problem of the first part would still be there at the end
  have hclean₁ : s₁.issues.hasAny = false := by
    have hissues := (hostStmts_hosts hold ys h₁ hat₁).2.1.issues
    rw [hsecond] at hissues
    by_contra hany
    rw [hissues (by simpa using hany)] at hclean
    cases hclean
  obtain ⟨first, t, vs, hchunk, rfl, htwin, htop⟩ := hostPart_first hold hfirst hclean₁
  refine ⟨first, t, vs, hchunk, htwin.issues.symm.trans hclean₁, htwin.hasDeclared h₁,
    fun rest hlater => ?_⟩
  obtain ⟨second, t', hpart, rfl⟩ :=
    hostStmts_second h₁ hat₁ hclean₁ htwin htop hsecond hclean hlater
  exact ⟨second, t', hpart, rfl⟩

end Bind

end Chunkwise
