import Chunkwise.Proofs.Parallel.Stmt
import Chunkwise.Proofs.Split.Seam

/-!
Statements are bound to the same code on both sides of a seam, moved up by the frame slots of the earlier
statements. The one place where the two sides differ is the lookup of a name: a variable of the earlier
statements is a binding on one side and registered on the other, and means the same slot. Only inside a scope
of its own may a statement define locals: at the top, the whole chunk has names in scope that the chunk of its
own has not.
-/
namespace Chunkwise

open Attempt

variable {g : Seam} {vs : List NewVariable} {s t : BindState}

/-- The states are twins, this many scopes below the top. -/
def BindState.TwinAt (g : Seam) (vs : List NewVariable) (n : Nat) (s t : BindState) : Prop :=
  s.Twin g vs t ∧ t.body.scopes.inner.length = n

namespace BindState.Twin

theorem withScopes
    (ht : s.Twin g vs t) (sc : Scopes) (hroot : sc.root = t.body.scopes.root) :
    (s.withScopes (sc.behind g.shift g.bindings)).Twin g vs (t.withScopes sc) := by
  have hs : (s.withScopes (sc.behind g.shift g.bindings)).body =
      .hostWith (sc.behind g.shift g.bindings) := by
    unfold BindState.withScopes
    rw [ht.body.1]
    rfl
  have htop : (t.withScopes sc).body = .hostWith sc := by
    unfold BindState.withScopes
    rw [ht.body.2]
    rfl
  exact { ht with body := ⟨hs, htop⟩, root := hroot.trans ht.root }

theorem issue (ht : s.Twin g vs t) (i : Issue) :
    ({ s with issues := s.issues.push i } : BindState).Twin g vs
      { t with issues := t.issues.push i } :=
  { ht with issues := (Bind.hasAny_push _ _).trans (Bind.hasAny_push _ _).symm }

theorem scopes (ht : s.Twin g vs t) : s.body.scopes = t.body.scopes.behind g.shift g.bindings := by
  rw [ht.body.1]
  rfl

theorem push (ht : s.Twin g vs t) (kind : ScopeKind) :
    (s.withScopes (s.body.scopes.push kind)).Twin g vs (t.withScopes (t.body.scopes.push kind)) := by
  rw [ht.scopes, Scopes.push_behind]
  exact ht.withScopes _ rfl

theorem pop (ht : s.Twin g vs t) :
    (s.withScopes s.body.scopes.pop).Twin g vs (t.withScopes t.body.scopes.pop) := by
  rw [ht.scopes, Scopes.pop_behind]
  exact ht.withScopes _ rfl

end BindState.Twin

theorem Registry.meaning?_place {r : Registry} {st : Store} {name : String} {x : Resolved}
    (h : r.meaning? st name = some x) : ∃ slot t isReadonly, x = .place (.static slot) t isReadonly := by
  unfold meaning? at h
  obtain ⟨v, -, h⟩ := Option.bind_eq_some_iff.mp h
  obtain ⟨slot, -, rfl⟩ := Option.map_eq_some_iff.mp h
  exact ⟨_, _, _, rfl⟩

theorem Registry.meaning?_same {k : Nat} (r : Registry) (st : Store) (name : String) :
    Option.Rel (Resolved.Same (Shifted k) Eq) (r.meaning? st name) (r.meaning? st name) := by
  cases hx : r.meaning? st name with
  | none => exact .none
  | some x =>
    obtain ⟨slot, t, isReadonly, rfl⟩ := Registry.meaning?_place hx
    exact .some (.place t isReadonly (.static rfl))

theorem Resolved.Same.lift (k : Nat) (b : Binding) :
    (Resolved.ofBinding (b.lift k)).Same (Shifted k) Eq (Resolved.ofBinding b) := by
  cases b with
  | frame slot t isReadonly => exact .place t isReadonly (.frame rfl)
  | _ slot t isReadonly => exact .place t isReadonly (.static rfl)

namespace Bind

theorem cacheKey_top {n m : String} :
    BindState.cacheKey .top n = BindState.cacheKey .top m ↔ n = m := by
  simp [BindState.cacheKey]

theorem lookupEntity_run {s : BindState} (hs : s.Remembers) (name : String) :
    ∃ cache, lookupEntity .top name s = (some (s.lookupUncached .top name), { s with cache := cache }) ∧
      ({ s with cache := cache } : BindState).Remembers := by
  unfold lookupEntity
  cases hcached : s.cache.lookup (BindState.cacheKey .top name) with
  | some e => exact ⟨s.cache, by rw [hs name e hcached], hs⟩
  | none =>
    cases hfound : s.lookupUncached .top name with
    | none => exact ⟨s.cache, rfl, hs⟩
    | some e =>
      refine ⟨_, rfl, fun n e' he' => ?_⟩
      change s.lookupUncached .top n = some e'
      by_cases hn : n = name
      · subst hn
        rw [List.lookup_cons_self] at he'
        rw [← he', hfound]
      · have hkey : (BindState.cacheKey .top n == BindState.cacheKey .top name) = false :=
          beq_false_of_ne fun h => hn (cacheKey_top.mp h)
        rw [List.lookup_cons, hkey] at he'
        exact hs n e' he'

theorem lookupUncached_twin {s t : BindState} (ht : s.Twin g vs t) (ctx : TypeContext)
    (name : String) : s.lookupUncached ctx name = t.lookupUncached ctx name := by
  have hopen : s.openType? name = t.openType? name := by
    unfold BindState.openType?
    rw [ht.image]
  unfold BindState.lookupUncached BindState.lookupAlias? BindState.allUsings
  rw [hopen, ht.image, ht.usings]

theorem lookupEntity_parallel (n : Nat) (name : String) :
    Parallel (BindState.TwinAt g vs n) Eq (lookupEntity .top name) (lookupEntity .top name) := by
  rintro s t ⟨ht, hlen⟩
  obtain ⟨cache, hs, hremembers⟩ := lookupEntity_run ht.cache.1 name
  obtain ⟨cache', ht', hremembers'⟩ := lookupEntity_run ht.cache.2 name
  rw [hs, ht']
  exact ⟨.some (lookupUncached_twin ht .top name), { ht with cache := ⟨hremembers, hremembers'⟩ }, hlen⟩

theorem registered_eq (name : String) {s : BindState} (hhost : s.body.isHost = true) :
    registered name s = (some (s.registry.meaning? s.store name), s) := by
  unfold registered Registry.meaning?
  rw [if_pos hhost]
  cases s.registry.lookup name with
  | none => rfl
  | some v => cases hslot : s.store.slots[v.slot]? <;> simp [hslot]

theorem registered_whole {s t : BindState} (ht : s.Twin g vs t) (name : String) :
    registered name s = (some (g.wholeNames.meaning? g.whole name), s) := by
  have hhost : s.body.isHost = true := by rw [ht.body.1]; rfl
  rw [registered_eq name hhost, ht.names.1, ht.store.1,
    Registry.meaning?_withVariables g.whole_slots]

theorem registered_rest {s t : BindState} (ht : s.Twin g vs t) (name : String) :
    registered name t = (some (g.restNames.meaning? g.rest name), t) := by
  have hhost : t.body.isHost = true := by rw [ht.body.2]; rfl
  rw [registered_eq name hhost, ht.names.2, ht.store.2,
    Registry.meaning?_withVariables g.rest_slots]

/-- A variable of the earlier statements is a binding here and registered there. -/
theorem variableNamed_parallel (n : Nat) (name : String) :
    Parallel (BindState.TwinAt g vs n) (Option.Rel (Resolved.Same (Shifted g.shift) Eq))
      (variableNamed name) (variableNamed name) := by
  rintro s t ⟨ht, hlen⟩
  have hmeaning := g.meaning name
  simp only [variableNamed, body, Bind.bind, Attempt.bind, Attempt.gets, ht.scopes, Scopes.lookup_behind]
  cases t.body.scopes.lookup name with
  | some b => exact ⟨.some (.some (.lift g.shift b)), ht, hlen⟩
  | none =>
    rw [Option.map_none, Option.none_or]
    cases hbinding : g.bindings.lookup name with
    | some b =>
      rw [hbinding, Option.map_some, Option.some_or] at hmeaning
      dsimp only
      rw [registered_rest ht, ← hmeaning]
      obtain ⟨slot, t, isReadonly, hplace⟩ := Registry.meaning?_place hmeaning.symm
      rw [hplace]
      exact ⟨.some (.some (.place t isReadonly (.static rfl))), ht, hlen⟩
    | none =>
      rw [hbinding, Option.map_none, Option.none_or] at hmeaning
      dsimp only
      rw [registered_whole ht, registered_rest ht, hmeaning]
      exact ⟨.some (g.restNames.meaning?_same g.rest name), ht, hlen⟩

theorem insert_inner (sc : Scopes) (h : sc.inner ≠ []) (name : String) (b : Binding) :
    (sc.insert name b).root = sc.root ∧ (sc.insert name b).inner.length = sc.inner.length := by
  cases hinner : sc.inner with
  | nil => exact absurd hinner h
  | cons scope rest => simp [Scopes.insert, hinner]

theorem defineLocal_parallel {n : Nat} (hn : n ≠ 0) (name : Ident) (t : Ty) (isReadonly : Bool) :
    Parallel (BindState.TwinAt g vs n) (Shifted g.shift) (defineLocal name t isReadonly)
      (defineLocal name t isReadonly) := by
  rintro s t' ⟨ht, rfl⟩
  have hinner : t'.body.scopes.inner ≠ [] := fun hnil => hn (by rw [hnil, List.length_nil])
  have hdefined : (t'.body.scopes.behind g.shift g.bindings).definedHere name.name =
      t'.body.scopes.definedHere name.name := Scopes.definedHere_behind hinner name.name
  rw [defineLocal_eq, defineLocal_eq, ht.scopes, hdefined]
  by_cases hdef : t'.body.scopes.definedHere name.name = true
  · rw [if_pos hdef, if_pos hdef]
    exact ⟨.none, ht.issue _, rfl⟩
  · rw [if_neg hdef, if_neg hdef]
    obtain ⟨hroot, hlen⟩ := insert_inner t'.body.scopes hinner name.name
      (.frame t'.body.scopes.nextSlot t isReadonly)
    have hstep := ht.withScopes
      { t'.body.scopes.insert name.name (.frame t'.body.scopes.nextSlot t isReadonly) with
        nextSlot := t'.body.scopes.nextSlot + 1 } hroot
    rw [← Scopes.local_behind] at hstep
    exact ⟨.some rfl, hstep, hlen⟩

end Bind

theorem Seam.steady (g : Seam) (vs : List NewVariable) (n : Nat) :
    Steady Bind.cachedLookup Bind.cachedLookup id (fun ctx => ctx = .top) (BindState.TwinAt g vs n) where
  issue _ _ p span h := ⟨h.1.issue ⟨p, span⟩, h.2⟩
  find := by
    rintro _ name rfl
    exact Bind.lookupEntity_parallel n name
  lookup _ _ h := by rw [h.1.image]

def Seam.accord (g : Seam) (vs : List NewVariable) : Accord Bind.cachedLookup Bind.cachedLookup where
  state := BindState.TwinAt g vs
  frame := Shifted g.shift
  static := Eq
  view := id
  known ctx := ctx = .top
  declares n := n ≠ 0
  steady := g.steady vs
  body := by
    rintro _ s t ⟨ht, -⟩
    rw [ht.body.1]
    exact ⟨by rw [ht.body.2]; rfl, by rw [ht.body.2]; rfl, by rw [ht.body.2]; rfl,
      by rw [ht.body.2]; rfl, Scopes.inLoop_behind⟩
  known_ctx _ _ _ h := by
    rw [h.1.body.1]
    rfl
  types _ s t h p := by
    rw [h.1.image]
    cases t.image.typeDef? p with
    | none => exact .none
    | some d => exact .some (.refl (fun _ => rfl) d)
  variableNamed := Bind.variableNamed_parallel
  push _ _ _ kind h := ⟨h.1.push kind, congrArg (· + 1) h.2⟩
  pop _ _ t h := ⟨h.1.pop, by
    change t.body.scopes.inner.tail.length = _
    rw [List.length_tail, h.2, Nat.add_sub_cancel]⟩
  inner n := Nat.succ_ne_zero n
  define _ name t isReadonly hn := Bind.defineLocal_parallel hn name t isReadonly

def Typed.lift (k : Nat) (v : Typed) : Typed := ⟨v.expr.lift k, v.type⟩

@[simp] theorem Typed.lift_type (k : Nat) (v : Typed) : (v.lift k).type = v.type := rfl

theorem Typed.Same.eq_lift {k : Nat} {v v' : Typed} (h : v.Same (Shifted k) Eq v') : v = v'.lift k := by
  cases v
  unfold lift
  congr 1
  · exact h.expr.eq_lift
  · exact h.type

namespace Bind

variable {n : Nat}

theorem refuse_twins {α β : Type} {A : α → β → Prop} (p : Problem) (span : Span) :
    Parallel (BindState.TwinAt g vs n) A (refuse p span) (refuse p span) :=
  refuse_parallel (g.steady vs n) p span

theorem expr_twins (e : Expr) :
    Parallel (BindState.TwinAt g vs n) (fun v v' => v = v'.lift g.shift) (expr e) (expr e) := by
  have h : Parallel _ _ (expr e) (expr (e.relocate id)) := expr_parallel (n := n) (g.accord vs) e
  rw [Expr.relocate_id] at h
  exact h.mono fun _ _ => Typed.Same.eq_lift

theorem value_twins (e : Expr) :
    Parallel (BindState.TwinAt g vs n) (fun v v' => v = v'.lift g.shift) (value e) (value e) := by
  have h : Parallel _ _ (value e) (value (e.relocate id)) := value_parallel (n := n) (g.accord vs) e
  rw [Expr.relocate_id] at h
  exact h.mono fun _ _ => Typed.Same.eq_lift

theorem declarator_twins (decl : LocalDecl) (d : Declarator) :
    Parallel (BindState.TwinAt g vs n) (fun x x' => x = (x'.1, x'.2.map (BoundExpr.lift g.shift)))
      (declarator decl d) (declarator decl d) := by
  have h : Parallel _ _ (declarator decl d) (declarator (decl.relocate id) (d.relocate id)) :=
    declarator_parallel (n := n) (g.accord vs) decl d
  rw [LocalDecl.relocate_id, Declarator.relocate_id] at h
  refine h.mono ?_
  rintro ⟨t, e?⟩ ⟨t', e'?⟩ ⟨ht, he⟩
  obtain rfl : t = t' := ht
  cases he with
  | none => rfl
  | some he => rw [he.eq_lift, Option.map_some]

/-- A statement behind the seam; a declaration needs a scope of its own. -/
theorem stmt_twins (x : Stmt) (h : ∀ span decl, x = .declare span decl → n ≠ 0) :
    Parallel (BindState.TwinAt g vs n) (fun b b' => b = b'.lift g.shift g.keeps) (stmt x) (stmt x) := by
  have h : Parallel _ _ (stmt x) (stmt (x.relocate id)) := stmt_parallel (g.accord vs) x h
  rw [Stmt.relocate_id] at h
  exact h.mono fun _ _ hb => hb.eq_lift g.keeps

end Bind

end Chunkwise
