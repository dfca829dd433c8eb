import Chunkwise.Proofs.Cache.Unit
import Chunkwise.Proofs.Session.Directory

/-!
Binding a chunk goes the same way with the cache and without it: whenever a name is looked up, the answer is
what the name denotes at that point, whatever was declared before and whether or not the chunk has problems.
-/
namespace Chunkwise

theorem Image.Orderly.charted {im : Image} (h : im.Orderly) : Charted im.shape :=
  ⟨h.distinct, h.segments⟩

namespace History

variable {h : History}

/-- The cache is transparent in every session and for every chunk. Binding goes the same way if names are
looked up anew, each name that it looks up is answered with what it denotes there without the cache, and in
two contexts with one key every name denotes the same. -/
theorem Reachable.lookups_transparent (hr : h.Reachable) (src : Source) :
    (∀ unit, (parseStatements src).clean? = some unit →
      Bind.Transparent (fun ask => @Bind.statementUnit ask unit) h.session.bindStart) ∧
    ∀ unit, (parseDeclarations src).clean? = some unit →
      Bind.Transparent (fun ask => @Bind.declarationUnit ask unit) h.session.bindStart := by
  obtain ⟨ho, -⟩ := hr.directory
  have hcharted : Charted h.session.bindStart.image.shape := ho.charted
  refine ⟨fun unit _ => ?_, fun unit hread => ?_⟩
  · exact (Bind.statementUnit_guided unit hcharted rfl rfl).transparent
  · obtain ⟨hclean, hunit⟩ := Parsed.clean?_eq_some.mp hread
    have hroot : h.session.image.Open [] := ⟨fun hmem => ho.nonempty _ hmem rfl, by simp⟩
    obtain ⟨c, hguided⟩ := Bind.declarationUnit_guided (named_of_read hclean hunit) hcharted hroot
      rfl rfl rfl
    exact hguided.transparent

section

variable {ask : NameLookup} {q : QualifiedName} {e e' : Expr} {span span' span'' : Span}
  {s t : BindState}

theorem resolve_new_found (hq : q.segments = ["X"]) (hbody : s.body = .host) {p : Path} {d : TypeDef}
    (hask : ask.find .top "X" s = (some (some (.type p)), t)) (hd : t.image.typeDef? p = some d)
    (hplain : (d.hasObjects && !d.isStatic && !d.isAbstract && d.constructors.isEmpty) = true) :
    @Bind.resolve ask (.new span ⟨.named q, span'⟩ []) s =
      (some (.value (.new p none []) (.named p)), t) := by
  simp only [Bool.and_eq_true, Bool.not_eq_true', List.isEmpty_iff] at hplain
  obtain ⟨⟨⟨hobjects, hstatic⟩, habstract⟩, hnone⟩ := hplain
  unfold Bind.resolve Bind.instantiable Bind.resolveValueType Bind.resolveType Bind.lookupQualified
  simp [hq, hbody, hask, hd, hobjects, hstatic, habstract, hnone, bind, pure, Attempt.bind,
    Attempt.pure, Attempt.gets, Attempt.ofOption, Attempt.allSome, Bind.body, Bind.image, Bind.descend,
    Bind.typeDef, Bind.construct, Bind.resolveArgs, Bind.ofTyped, BodyContext.host]

theorem resolve_new_lost (hq : q.segments = ["X"]) (hbody : s.body = .host)
    (hask : ask.find .top "X" s = (none, s)) :
    @Bind.resolve ask (.new span ⟨.named q, span'⟩ []) s = (none, s) := by
  unfold Bind.resolve Bind.instantiable Bind.resolveValueType Bind.resolveType Bind.lookupQualified
  simp only [hq, hbody, hask, bind, Attempt.bind, Attempt.gets, Bind.body, BodyContext.host]

theorem statementUnit_lost {b : BoundExpr} {ty : Ty} (hhost : { s with body := .host } = s)
    (hplain : Bind.implicitTarget? e = none) (hplain' : Bind.implicitTarget? e' = none)
    (hfound : @Bind.resolve ask e s = (some (.value b ty), t))
    (hlost : @Bind.resolve ask e' t = (none, t)) (hclean : t.issues.hasAny = false) :
    (@Bind.statementUnit ask ⟨[.expr span e, .expr span' e'], span''⟩ s).1.map Code.body =
      some [.expr b] := by
  unfold Bind.statementUnit Bind.setBody Bind.hostStmts Bind.hostStmts Bind.hostStmts Bind.hostStmt
    Bind.hostExprStmt Bind.hostExpr Bind.expr Bind.stopOnErrors
  simp [hhost, hplain, hplain', hfound, hlost, hclean, bind, pure, Attempt.bind, Attempt.pure,
    Attempt.modify, Attempt.gets, Attempt.optional, Bind.demand, Bind.hasErrors, Bind.body]

end

/-- Two objects of a nested type that goes by another name. -/
def twice : Source := ⟨"test", "new X(); new X();"⟩

def isTwice (unit : StatementUnit) : Bool :=
  match unit.stmts with
  | [.expr _ (.new _ ⟨.named q, _⟩ []), .expr _ (.new _ ⟨.named q', _⟩ [])] =>
    q.segments == ["X"] && q'.segments == ["X"]
  | _ => false

theorem bindStart_host (session : Session) :
    { session.bindStart with body := .host } = session.bindStart := rfl

/-- Both objects are read and bound, with the name found among the aliases. -/
theorem twice_bound :
    ((parseStatements twice).clean?.any fun unit => isTwice unit &&
      ((Bind.statementUnit unit reopened.session.bindStart).1.map Code.body).any fun code =>
        code.length == 2) = true ∧
    reopened.session.bindStart.lookupUncached .top "X" = some (.type ["N", "A", "B"]) ∧
    ((reopened.session.bindStart.image.typeDef? ["N", "A", "B"]).any fun d =>
      d.hasObjects && !d.isStatic && !d.isAbstract && d.constructors.isEmpty) = true := by
  decide +kernel

section

variable {s : BindState}

/-- The first time, the name is looked up and remembered. -/
theorem lookupEntity_first (hempty : s.cache = [])
    (hfound : s.lookupUncached .top "X" = some (.type ["N", "A", "B"])) :
    Bind.lookupEntity .top "X" s = (some (some (.type ["N", "A", "B"])),
      { s with cache := [(("", "X"), .type ["N", "A", "B"])] }) := by
  simp only [Bind.lookupEntity, hempty, List.lookup_nil, hfound]
  rfl

theorem asks_again {unit : StatementUnit} (htwice : isTwice unit = true) (hempty : s.cache = [])
    (hhost : { s with body := .host } = s) (hclean : s.issues.hasAny = false)
    (hfound : s.lookupUncached .top "X" = some (.type ["N", "A", "B"]))
    (htype : ((s.image.typeDef? ["N", "A", "B"]).any fun d =>
      d.hasObjects && !d.isStatic && !d.isAbstract && d.constructors.isEmpty) = true)
    (hboth : (((Bind.statementUnit unit s).1.map Code.body).any fun code => code.length == 2) = true) :
    Bind.Asks (fun ask => @Bind.statementUnit ask unit) s
      ⟨{ s with cache := [(("", "X"), .type ["N", "A", "B"])] }, .top, "X"⟩ := by
  classical
  let t : BindState := { s with cache := [(("", "X"), .type ["N", "A", "B"])] }
  let ask : NameLookup := ⟨fun ctx name s =>
    if Question.mk s ctx name = ⟨t, .top, "X"⟩ then (none, s) else Bind.lookupEntity ctx name s⟩
  refine ⟨ask, fun q' hq' => if_neg hq', fun heq => ?_⟩
  have hfirst : ask.find .top "X" s = (some (some (.type ["N", "A", "B"])), t) := by
    refine (if_neg fun hsame => ?_).trans (lookupEntity_first hempty hfound)
    have hcache := congrArg (fun q => q.state.cache) hsame
    rw [hempty] at hcache
    cases hcache
  have hsecond : ask.find .top "X" t = (none, t) := if_pos rfl
  have hbody : s.body = .host := (congrArg BindState.body hhost).symm
  obtain ⟨d, hd, hplain⟩ := (Option.any_eq_true _ _).mp htype
  obtain ⟨stmts, span⟩ := unit
  unfold isTwice at htwice
  split at htwice
  · next hstmts =>
    simp only [Bool.and_eq_true, beq_iff_eq] at htwice
    dsimp only at hstmts
    subst hstmts
    dsimp only at heq
    rw [← heq, statementUnit_lost hhost rfl rfl (resolve_new_found htwice.1 hbody hfirst hd hplain)
      (resolve_new_lost htwice.2 hbody hsecond) hclean] at hboth
    cases hboth
  · cases htwice

end

/-- The second time the name is asked for, it is remembered. -/
def secondTime : Question :=
  ⟨{ reopened.session.bindStart with cache := [(("", "X"), .type ["N", "A", "B"])] }, .top, "X"⟩

/-- What is remembered is what the alias denotes. -/
theorem lookups_transparent_alias : ∃ unit, (parseStatements twice).clean? = some unit ∧
    Bind.Asks (fun ask => @Bind.statementUnit ask unit) reopened.session.bindStart secondTime ∧
    Bind.lookupEntity .top "X" secondTime.state = (some (some (.type ["N", "A", "B"])), secondTime.state) ∧
    secondTime.state.lookupUncached .top "X" = some (.type ["N", "A", "B"]) := by
  obtain ⟨hbound, hfound, htype⟩ := twice_bound
  obtain ⟨unit, hread, hunit⟩ := (Option.any_eq_true _ _).mp hbound
  simp only [Bool.and_eq_true] at hunit
  have hasked : Bind.Asks (fun ask => @Bind.statementUnit ask unit) reopened.session.bindStart secondTime :=
    asks_again hunit.1 rfl (bindStart_host _) rfl hfound htype hunit.2
  have hremembered : Bind.lookupEntity .top "X" secondTime.state =
      (some (some (.type ["N", "A", "B"])), secondTime.state) := rfl
  have hanswer := ((reopened_reachable.lookups_transparent twice).1 unit hread).answers _ hasked
  have hsame := (congrArg Prod.fst hremembered).symm.trans hanswer
  exact ⟨unit, hread, hasked, hremembered, (Option.some.inj hsame).symm⟩

end History

end Chunkwise
