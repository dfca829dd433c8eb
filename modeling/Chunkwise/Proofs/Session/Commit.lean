import Chunkwise.Proofs.Binder.Unit
import Chunkwise.Session.Compile
import Mathlib.Data.List.Nodup

/-!
A committed chunk registers its new variables one by one, and each of them releases the slot that
its name stood for before. Committing what a chunk delivers leaves a valid session, and compiling
either does that or leaves the session as it was.
-/
namespace Chunkwise

theorem Registry.lookup_bind (entries : List (String × Variable)) (name : String) (v : Variable)
    (n : String) : (Registry.bind name v entries).lookup n =
      if n = name then some v else entries.lookup n := by
  induction entries with
  | nil =>
    by_cases hn : n = name
    · simp [Registry.bind, hn]
    · simp [Registry.bind, List.lookup_cons, hn, beq_false_of_ne hn]
  | cons e rest ih =>
    obtain ⟨m, old⟩ := e
    unfold Registry.bind
    split
    · next hm =>
      subst hm
      by_cases hn : n = m
      · simp [hn]
      · simp [List.lookup_cons, hn, beq_false_of_ne hn]
    · next hm =>
      by_cases hn : n = name
      · have hne : (n == m) = false := beq_false_of_ne fun h => hm (h.symm.trans hn)
        rw [List.lookup_cons, hne, ih, if_pos hn, if_pos hn]
      · simp only [List.lookup_cons, ih, if_neg hn]

theorem Registry.lookup_register (r : Registry) (st : Store) (name : String) (v : Variable)
    (n : String) : (r.register st name v).1.lookup n = if n = name then some v else r.lookup n :=
  lookup_bind r.entries name v n

def Slot.freed (s : Slot) : Slot := { s with value := .null, released := true }

theorem Store.release_slot (st : Store) (i j : Nat) :
    (st.release i).slots[j]? = if i = j then (st.slots[j]?).map Slot.freed else st.slots[j]? := by
  simp only [release, Array.getElem?_modify]
  rfl

namespace Session

/-- Whether registering these variables releases a slot: it stands for one of their names. -/
def frees (r : Registry) (vs : List PendingVariable) (i : Nat) : Bool :=
  vs.any fun v => (r.lookup v.name).any fun w => w.slot == i

theorem frees_iff {r : Registry} {vs : List PendingVariable} {i : Nat} :
    frees r vs i = true ↔ ∃ v ∈ vs, ∃ w, r.lookup v.name = some w ∧ w.slot = i := by
  simp [frees, Option.any_eq_true]

/-- Registering one variable does not matter for the names of the others. -/
theorem frees_register {r : Registry} {st : Store} {name : String} {w : Variable} {i : Nat}
    {vs : List PendingVariable} (h : ∀ v ∈ vs, v.name ≠ name) :
    frees (r.register st name w).1 vs i = frees r vs i := by
  unfold frees
  rw [Bool.eq_iff_iff, List.any_eq_true, List.any_eq_true]
  refine exists_congr fun v => and_congr_right fun hv => ?_
  rw [Registry.lookup_register, if_neg (h v hv)]

variable {r : Registry} {st : Store} {vs : List PendingVariable}

theorem registerAll_cons (v : PendingVariable) :
    registerAll (v :: vs) r st = registerAll vs (r.register st v.name ⟨v.slot, v.isReadonly⟩).1
      (r.register st v.name ⟨v.slot, v.isReadonly⟩).2 := rfl

theorem lookup_registerAll_of_not_mem {name : String} (h : ∀ v ∈ vs, v.name ≠ name) :
    (registerAll vs r st).1.lookup name = r.lookup name := by
  induction vs generalizing r st with
  | nil => rfl
  | cons v vs ih =>
    rw [registerAll_cons, ih fun x hx => h x (List.mem_cons_of_mem _ hx), Registry.lookup_register,
      if_neg (h v (by simp)).symm]

theorem lookup_registerAll_of_mem (hnames : (vs.map PendingVariable.name).Nodup)
    {v : PendingVariable} (hv : v ∈ vs) :
    (registerAll vs r st).1.lookup v.name = some ⟨v.slot, v.isReadonly⟩ := by
  induction vs generalizing r st with
  | nil => cases hv
  | cons x vs ih =>
    obtain ⟨hx, hrest⟩ := List.nodup_cons.mp hnames
    rw [registerAll_cons]
    rcases List.mem_cons.mp hv with rfl | hv
    · have hne : ∀ y ∈ vs, y.name ≠ v.name := fun y hy heq => hx (heq ▸ List.mem_map_of_mem hy)
      rw [lookup_registerAll_of_not_mem hne, Registry.lookup_register, if_pos rfl]
    · exact ih hrest hv

/-- A name stands for a new variable or for what it stood for before. -/
theorem lookup_registerAll_cases (hnames : (vs.map PendingVariable.name).Nodup) {name : String}
    {w : Variable} (h : (registerAll vs r st).1.lookup name = some w) :
    (∃ v ∈ vs, v.name = name ∧ v.slot = w.slot) ∨
      (∀ v ∈ vs, v.name ≠ name) ∧ r.lookup name = some w := by
  by_cases hv : ∃ v ∈ vs, v.name = name
  · obtain ⟨v, hv, rfl⟩ := hv
    rw [lookup_registerAll_of_mem hnames hv] at h
    cases h
    exact .inl ⟨v, hv, rfl, rfl⟩
  · have hne : ∀ v ∈ vs, v.name ≠ name := fun v hmem heq => hv ⟨v, hmem, heq⟩
    rw [lookup_registerAll_of_not_mem hne] at h
    exact .inr ⟨hne, h⟩

theorem registerAll_heap : (registerAll vs r st).2.heap = st.heap := by
  induction vs generalizing r st with
  | nil => rfl
  | cons v vs ih =>
    rw [registerAll_cons, ih]
    unfold Registry.register
    dsimp only
    split <;> rfl

/-- Exactly the slots of the names that are declared again are released. -/
theorem registerAll_slot (hnames : (vs.map PendingVariable.name).Nodup) (i : Nat) :
    (registerAll vs r st).2.slots[i]? =
      if frees r vs i then (st.slots[i]?).map Slot.freed else st.slots[i]? := by
  induction vs generalizing r st with
  | nil => rfl
  | cons v vs ih =>
    obtain ⟨hv, hrest⟩ := List.nodup_cons.mp hnames
    have hne : ∀ x ∈ vs, x.name ≠ v.name := fun x hx heq => hv (heq ▸ List.mem_map_of_mem hx)
    have hcons : frees r (v :: vs) i =
        ((r.lookup v.name).any (fun w => w.slot == i) || frees r vs i) := rfl
    rw [registerAll_cons, ih hrest, frees_register hne, hcons]
    unfold Registry.register
    cases hl : r.lookup v.name with
    | none => rfl
    | some w =>
      simp only [Store.release_slot, Option.any_some]
      by_cases hw : w.slot = i
      · simp only [hw, beq_self_eq_true, Bool.true_or, if_true]
        cases st.slots[i]? <;> simp [Slot.freed]
      · simp [hw]

end Session

namespace Image

variable {im im' : Image}

theorem foldl_addUsing_entries (us : List Using) (im : Image) :
    (us.foldl addUsing im).entries = im.entries := by
  induction us generalizing im with
  | nil => rfl
  | cons u us ih =>
    refine (ih (im.addUsing u)).trans ?_
    unfold addUsing
    split <;> rfl

theorem mem_foldl_addUsing {us : List Using} {u : Using}
    (h : u ∈ (us.foldl addUsing im).usings) : u ∈ im.usings ∨ u ∈ us := by
  induction us generalizing im with
  | nil => exact .inl h
  | cons x us ih =>
    rcases ih h with h | h
    · unfold addUsing at h
      split at h
      · exact .inl h
      · rcases List.mem_append.mp h with h | h
        · exact .inl h
        · exact .inr (List.mem_singleton.mp h ▸ List.mem_cons_self)
    · exact .inr (List.mem_cons_of_mem _ h)

theorem commit_entries (im : Image) (us : List Using) (paths : List Path) :
    (im.commit us paths).entries = im.entries := foldl_addUsing_entries us im

theorem typeDef?_commit (im : Image) (us : List Using) (paths : List Path) (p : Path) :
    (im.commit us paths).typeDef? p = im.typeDef? p := by
  simp only [typeDef?, find?, commit_entries]

theorem grows_commit (im : Image) (us : List Using) (paths : List Path) :
    im.Grows (im.commit us paths) :=
  fun p d hd => ⟨d, (typeDef?_commit im us paths p).trans hd, rfl⟩

theorem staticSlot_commit {us : List Using} {paths : List Path} {i : Nat} {t : Ty} :
    (im.commit us paths).StaticSlot i t ↔ im.StaticSlot i t := by
  simp only [StaticSlot, typeDef?_commit]

theorem Sound.commit (h : im.Sound) (us : List Using) (paths : List Path) :
    (im.commit us paths).Sound where
  sigs p d hd := by
    rw [typeDef?_commit] at hd
    exact (h.sigs p d hd).keep (grows_commit im us paths).keeps
  bodies p d hd := by
    rw [typeDef?_commit] at hd
    exact (h.bodies p d hd).grow (grows_commit im us paths)
  conforming p d hd := by
    rw [typeDef?_commit] at hd
    exact (h.conforming p d hd).grow (h.sigs p d hd) (grows_commit im us paths) rfl

theorem Flat.commit (h : im.Flat) (us : List Using) (paths : List Path) :
    (im.commit us paths).Flat := by
  intro p d hd
  rw [typeDef?_commit] at hd
  exact h p d hd

end Image

namespace Session

variable {s : Session} {b : BindState} {code : Code}

theorem not_frees_of_static (hs : s.Valid) (h : b.Delivers s code) {i : Nat} {t : Ty}
    (hi : b.image.StaticSlot i t) : frees s.registry b.newVariables i = false := by
  refine Bool.eq_false_iff.mpr fun hf => ?_
  obtain ⟨v, -, w, hw, rfl⟩ := frees_iff.mp hf
  rcases (h.statics _ t hi).2 with hold | hge
  · exact hs.apart _ w t hw hold
  · obtain ⟨u, hu⟩ := hs.registered _ w hw
    have := hu.lt
    omega

theorem lt_of_frees (hs : s.Valid) {vs : List PendingVariable} {i : Nat}
    (hf : frees s.registry vs i = true) : i < s.store.slots.size := by
  obtain ⟨v, -, w, hw, rfl⟩ := frees_iff.mp hf
  obtain ⟨t, ht⟩ := hs.registered _ w hw
  exact ht.lt

theorem commit_slot (h : b.Delivers s code) (i : Nat) :
    (s.commit b).store.slots[i]? = if frees s.registry b.newVariables i
      then (b.store.slots[i]?).map Slot.freed else b.store.slots[i]? :=
  registerAll_slot h.names i

/-- A slot that is not released is the one that binding left. -/
theorem offers_commit (h : b.Delivers s code) {strict : Bool} {i : Nat} {t : Ty}
    (ho : b.store.Offers strict i t)
    (hf : strict = true → frees s.registry b.newVariables i = false) :
    (s.commit b).store.Offers strict i t := by
  obtain ⟨slot, hi, rfl, hr⟩ := ho
  unfold Store.Offers
  rw [commit_slot h]
  cases hfrees : frees s.registry b.newVariables i with
  | false => exact ⟨slot, hi, rfl, hr⟩
  | true =>
    refine ⟨slot.freed, by simp [hi], rfl, fun hstrict => ?_⟩
    rw [hf hstrict] at hfrees
    cases hfrees

theorem lookup_commit (h : b.Delivers s code) {name : String} {w : Variable}
    (hw : (s.commit b).registry.lookup name = some w) :
    (∃ v ∈ b.newVariables, v.name = name ∧ v.slot = w.slot) ∨
      (∀ v ∈ b.newVariables, v.name ≠ name) ∧ s.registry.lookup name = some w :=
  lookup_registerAll_cases h.names hw

theorem offers_new (hs : s.Valid) (h : b.Delivers s code) {v : PendingVariable}
    (hv : v ∈ b.newVariables) : ∃ t, (s.commit b).store.Offers true v.slot t := by
  obtain ⟨hge, hlt⟩ := h.fresh v hv
  have hslot := Array.getElem?_eq_getElem hlt
  refine ⟨_, offers_commit h ⟨_, hslot, rfl, fun _ => (h.store.new _ _ hge hslot).1⟩ fun _ => ?_⟩
  refine Bool.eq_false_iff.mpr fun hf => ?_
  have := lt_of_frees hs hf
  omega

theorem commit_valid (hs : s.Valid) (h : b.Delivers s code) : (s.commit b).Valid where
  closed e he p hne hpre := by
    change e ∈ (b.image.commit b.usings b.declared).entries at he
    change ∃ e' ∈ (b.image.commit b.usings b.declared).entries, e'.path = p
    rw [Image.commit_entries] at he ⊢
    exact h.extended.closed e he p hne hpre
  sound := h.sound.commit b.usings b.declared
  usings u hu := by
    refine Entity.Known.keep (Image.grows_commit b.image b.usings b.declared).keeps (h.usings u ?_)
    exact List.mem_append.mpr (Image.mem_foldl_addUsing hu)
  types i slot hi := by
    have hkeeps := (Image.grows_commit b.image b.usings b.declared).keeps
    have hknows : ∀ slot', b.store.slots[i]? = some slot' → b.image.Knows slot'.type := by
      intro slot' hi'
      by_cases hlt : i < s.store.slots.size
      · exact h.grows.knows (hs.types i slot' (h.store.old i hlt ▸ hi'))
      · exact (h.store.new i slot' (Nat.le_of_not_lt hlt) hi').2.1
    rw [commit_slot h] at hi
    split at hi
    · obtain ⟨slot', hi', rfl⟩ := Option.map_eq_some_iff.mp hi
      exact hkeeps.knows (hknows slot' hi')
    · exact hkeeps.knows (hknows slot hi)
  statics i t hi := by
    have hi' : b.image.StaticSlot i t := Image.staticSlot_commit.mp hi
    exact offers_commit h (h.statics i t hi').1 fun _ => not_frees_of_static hs h hi'
  registered name w hw := by
    rcases lookup_commit h hw with ⟨v, hv, -, hslot⟩ | ⟨hne, hw⟩
    · rw [← hslot]
      exact offers_new hs h hv
    · obtain ⟨t, ht⟩ := hs.registered name w hw
      refine ⟨t, offers_commit h (h.store.offers ht) fun _ => Bool.eq_false_iff.mpr fun hf => ?_⟩
      obtain ⟨v, hv, w', hw', heq⟩ := frees_iff.mp hf
      exact hne v hv (hs.distinct _ _ w' w hw' hw heq)
  apart name w t hw hi := by
    have hi' : b.image.StaticSlot w.slot t := Image.staticSlot_commit.mp hi
    rcases lookup_commit h hw with ⟨v, hv, -, hslot⟩ | ⟨-, hw⟩
    · exact h.apart v hv t (hslot ▸ hi')
    · rcases (h.statics _ t hi').2 with hold | hge
      · exact hs.apart name w t hw hold
      · obtain ⟨u, hu⟩ := hs.registered name w hw
        have := hu.lt
        omega
  distinct name name' w w' hw hw' heq := by
    have hsize : ∀ {n x}, s.registry.lookup n = some x → x.slot < s.store.slots.size := by
      intro n x hx
      obtain ⟨t, ht⟩ := hs.registered n x hx
      exact ht.lt
    rcases lookup_commit h hw with ⟨v, hv, rfl, hslot⟩ | ⟨-, hw⟩ <;>
      rcases lookup_commit h hw' with ⟨v', hv', rfl, hslot'⟩ | ⟨-, hw'⟩
    · have hsame : v.slot = v'.slot := by rw [hslot, hslot', heq]
      rw [List.inj_on_of_nodup_map h.slots hv hv' hsame]
    · have := (h.fresh v hv).1
      have := hsize hw'
      omega
    · have := (h.fresh v' hv').1
      have := hsize hw
      omega
    · exact hs.distinct _ _ w w' hw hw' heq

/-- A chunk is committed as a whole, or the session is what it was. -/
inductive Settled (s : Session) (c : Compiled) : Prop where
  | committed (u : CompiledUnit) (b : BindState) (outcome : c.outcome = .unit u)
      (delivers : b.Delivers s u.code) (session : c.session = s.commit b)
  | refused (outcome : ∀ u, c.outcome ≠ .unit u) (session : c.session = s)

theorem rollback_eq (h : s.image.Extends b.image b.undo) : s.rollback b = s := by
  unfold rollback
  rw [h.undoAll]

theorem bind_settled (src : Source) (kind : UnitKind) {p : Bind Code} (h : Bind.Chunk s p) :
    s.Settled (s.bind src kind p) := by
  have hrun := h _ rfl
  unfold Session.bind
  revert hrun
  rcases p (BindState.start s.image s.registry s.store) with ⟨_ | code, b⟩
  · intro hext
    exact .refused (fun u hu => by cases hu) (rollback_eq hext)
  · rintro ⟨hnone, hdelivers⟩
    simp only [hnone, Bool.false_eq_true, if_false]
    exact .committed _ b rfl hdelivers rfl

theorem bindParsed_settled {α : Type} (src : Source) (mode : ParseMode) (kind : UnitKind)
    (parsed : Parsed α) {binder : α → Bind Code} (h : ∀ a, Bind.Chunk s (binder a)) :
    s.Settled (s.bindParsed src mode kind parsed binder) := by
  unfold bindParsed
  split
  · split
    · exact .refused (fun u hu => by cases hu) rfl
    · exact .refused (fun u hu => by cases hu) rfl
  · split
    · exact bind_settled src kind (h _)
    · exact .refused (fun u hu => by cases hu) rfl

theorem compile_settled (hs : s.Valid) (src : Source) (chunkClass : ChunkClass) (mode : ParseMode) :
    s.Settled (s.compile src chunkClass mode) := by
  cases chunkClass with
  | endOfInput => exact .refused (fun u hu => by cases hu) rfl
  | invalid => exact .refused (fun u hu => by cases hu) rfl
  | statements =>
    exact bindParsed_settled src mode .statements _ (Bind.statementUnit_chunk hs)
  | declarations =>
    exact bindParsed_settled src mode .declarations _ (Bind.declarationUnit_chunk hs)

end Session

end Chunkwise
