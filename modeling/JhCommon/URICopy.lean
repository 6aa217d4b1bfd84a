import JhCommon.URIRuns

/-! Variables of type URI: the constructors, and the assignment that flushes its source and takes
over one field after the other. When a copy and its source tell the same. -/
namespace JhCommon
open Transition

/-- The calls on URI variables. `operator=` of a text is `setString` without the result. -/
inductive URIStoreOp (Var : Type)
  | construct (v : Var)
  | constructString (v : Var) (uri : Str)
  | copyConstruct (v u : Var)
  | assign (v u : Var)
  | clear (v : Var)
  | equal (v u : Var)
  | call (v : Var) (op : URIOp)

/-- What the const calls of a URI return. -/
structure URIGetters where
  scheme : Str
  authority : Str
  path : Str
  query : Str
  queryParam : Str → Str
  fragment : Str
  string : Str
  pathAndQuery : Str

namespace URI
variable {Var : Type} [DecidableEq Var]

/-- `copyValues` on variables. A copy of a URI to itself reads what it has written, and
`vector::operator=` clears its target before it looks at its source. -/
def copyInto (m : Var → URI) (v u : Var) : Var → URI :=
  let m := Function.update m u (m u).buildString
  let m := Function.update m v { m v with
    mRelative := (m u).mRelative, mModified := false, mModifiedQuery := false }
  let m := Function.update m v { m v with
    mFullString := (m u).mFullString, mQueryString := (m u).mQueryString
    mScheme := (m u).mScheme, mAuthority := (m u).mAuthority, mPath := (m u).mPath
    mFragment := (m u).mFragment }
  let m := Function.update m v { m v with mQueryParams := [] }
  Function.update m v { m v with mQueryParams := (m u).mQueryParams }

def constructString (uri : Str) : Exec URI := do
  let (_,s) ← { init with mFullString := uri }.parseString
  .ok s

def storeStep (m : Var → URI) : URIStoreOp Var → Exec (URIOutput × (Var → URI))
  | .construct v => .ok (.none,Function.update m v init)
  | .constructString v uri => do
    let s ← constructString uri
    .ok (.none,Function.update m v s)
  | .copyConstruct v u => .ok (.none,copyInto (Function.update m v init) v u)
  | .assign v u => .ok (.none,copyInto m v u)
  | .clear v => .ok (.none,Function.update m v (m v).clear)
  | .equal v u =>
    let m := Function.update m u (m u).buildString
    let m := Function.update m v (m v).buildString
    .ok (.result ((m v).mFullString = (m u).mFullString),m)
  | .call v op => do
    let (o,s) ← (m v).step op
    .ok (o,Function.update m v s)

def getters (s : URI) : URIGetters :=
  { scheme := s.getScheme, authority := s.getAuthority, path := s.getPath, query := s.getQuery.1
    queryParam := s.getQueryParam, fragment := s.getFragment, string := s.getString.1
    pathAndQuery := s.getPathAndQuery }

/-- The copy shows what its source shows, and the source what it has shown before. -/
def Copied (m m' : Var → URI) (v u : Var) : Prop :=
  (m' v).getters = (m' u).getters ∧ (m' u).getters = (m u).getters

/-- A call returns, and when it is a copy, of another variable or by assignment, it is one. -/
def Copies (m : Var → URI) (op : URIStoreOp Var) : Prop := ∃ o m', storeStep m op = .ok (o,m') ∧
  match op with
  | .copyConstruct v u => v ≠ u → Copied m m' v u
  | .assign v u => Copied m m' v u
  | _ => True

/-- The query string is the one of the parameters if these have changed. -/
def Current (s : URI) : Prop := s.mModifiedQuery = true → s.mQueryString = joinParams s.mQueryParams

/-- The first parameter of each key has an empty value. -/
def Blank (params : List QueryParam) : Prop :=
  ∀ key p, params.find? (·.mKey = key) = some p → p.mParam = []

/-- The source of a copy has a current query string, and if it is the target too, no value that can
be looked up. -/
def Clean (m : Var → URI) : URIStoreOp Var → Prop
  | .copyConstruct v u => v ≠ u → (m u).Current
  | .assign v u => (m u).Current ∧ (v = u → Blank (m u).mQueryParams)
  | _ => True

theorem copyInto_target (m : Var → URI) {v u : Var} (h : v ≠ u) :
    copyInto m v u v = (m u).copyValues := by
  simp [copyInto, copyValues, h, Function.update_of_ne (Ne.symm h)]

theorem copyInto_self (m : Var → URI) (u : Var) :
    copyInto m u u u = { (m u).copyValues with mQueryParams := [] } := by
  simp [copyInto, copyValues]

theorem copyInto_source (m : Var → URI) {v u : Var} (h : v ≠ u) :
    copyInto m v u u = (m u).buildString := by
  simp [copyInto, Function.update_of_ne (Ne.symm h)]

theorem getPathAndQuery_inj {s t : URI} (hpath : s.mPath = t.mPath) :
    s.getPathAndQuery = t.getPathAndQuery ↔ s.mQueryString = t.mQueryString := by
  unfold getPathAndQuery
  rw [hpath]
  split_ifs <;> simp_all [eq_comm]

/-- The components are the same: what is told of the query and the string decides. -/
theorem getters_with_iff (s : URI) (full query : Str) (params : List QueryParam) :
    ({ s with
        mModified := false, mModifiedQuery := false, mFullString := full, mQueryString := query
        mQueryParams := params } : URI).getters = s.getters ↔
      query = s.getQuery.1 ∧ lookupParam params = lookupParam s.mQueryParams ∧
        full = s.getString.1 ∧ query = s.mQueryString := by
  let t : URI := { s with
    mModified := false, mModifiedQuery := false, mFullString := full, mQueryString := query
    mQueryParams := params }
  have hlookup : t.getQueryParam = s.getQueryParam ↔
      lookupParam params = lookupParam s.mQueryParams := by
    rw [funext (getQueryParam_eq s), funext (getQueryParam_eq t)]
  have hpath : t.getPathAndQuery = s.getPathAndQuery ↔ query = s.mQueryString :=
    getPathAndQuery_inj rfl
  calc t.getters = s.getters
      ↔ query = s.getQuery.1 ∧ t.getQueryParam = s.getQueryParam ∧ full = s.getString.1 ∧
          t.getPathAndQuery = s.getPathAndQuery := by
        simp only [getters, URIGetters.mk.injEq]
        exact ⟨fun h => ⟨h.2.2.2.1,h.2.2.2.2.1,h.2.2.2.2.2.2⟩,
          fun h => ⟨rfl,rfl,rfl,h.1,h.2.1,rfl,h.2.2⟩⟩
    _ ↔ _ := by rw [hlookup, hpath]

theorem current_iff {s : URI} : s.Current ↔ s.mQueryString = s.getQuery.1 := by
  rw [getQuery_eq, Current]
  cases s.mModifiedQuery <;> simp

theorem lookupParam_eq_nil_iff {params : List QueryParam} :
    lookupParam params = lookupParam [] ↔ Blank params := by
  simp only [funext_iff, lookupParam, Blank, List.find?_nil, Option.map_none, Option.getD_none]
  refine forall_congr' fun key => ?_
  cases params.find? (·.mKey = key) <;> simp

/-- What a copy of a flushed source shows against the source before: the flush writes the query
string if the URI was modified, and without a flush the copy takes over the old one. -/
theorem getters_copy_iff (s : URI) (params : List QueryParam) :
    ({ s.copyValues with mQueryParams := params } : URI).getters = s.getters ↔
      s.Current ∧ lookupParam params = lookupParam s.mQueryParams := by
  rw [copyValues, buildString_eq, current_iff]
  split_ifs with hmod
  · refine (getters_with_iff s s.assemble s.getQuery.1 params).trans ?_
    rw [getString_of_modified hmod]
    constructor
    · rintro ⟨-,hparams,-,hquery⟩
      exact ⟨hquery.symm,hparams⟩
    · rintro ⟨hquery,hparams⟩
      exact ⟨rfl,hparams,rfl,hquery.symm⟩
  · have hstring : s.getString.1 = s.mFullString := by simp [getString, buildString, hmod]
    refine (getters_with_iff s s.mFullString s.mQueryString params).trans ?_
    rw [hstring]
    constructor
    · rintro ⟨hquery,hparams,-,-⟩
      exact ⟨hquery,hparams⟩
    · rintro ⟨hquery,hparams⟩
      exact ⟨hquery,hparams,rfl,rfl⟩

theorem buildString_getters {s : URI} (h : s.Current) : s.buildString.getters = s.getters := by
  rw [buildString_eq]
  split_ifs with hmod
  · apply (getters_with_iff s s.assemble s.getQuery.1 s.mQueryParams).mpr
    exact ⟨rfl,rfl,(getString_of_modified hmod).symm,(current_iff.mp h).symm⟩
  · rfl

/-- An assignment makes a copy exactly if it is a clean one. -/
theorem copied_iff (m : Var → URI) (v u : Var) : Copied m (copyInto m v u) v u ↔
    (m u).Current ∧ (v = u → Blank (m u).mQueryParams) := by
  have hparams : (m u).copyValues.mQueryParams = (m u).mQueryParams := by
    rw [copyValues, buildString_eq]
    split_ifs <;> rfl
  by_cases h : v = u
  · subst h
    rw [Copied, eq_self, true_and, copyInto_self, getters_copy_iff, eq_comm, lookupParam_eq_nil_iff,
      forall_prop_of_true rfl]
  · have hcopy : (copyInto m v u v).getters = (m u).getters ↔ (m u).Current := by
      rw [copyInto_target m h]
      exact (getters_copy_iff (m u) (m u).copyValues.mQueryParams).trans
        (and_iff_left (by rw [hparams]))
    rw [and_iff_left (fun hvu => absurd hvu h), Copied, copyInto_source m h]
    constructor
    · rintro ⟨hshow,hsame⟩
      exact hcopy.mp (hshow.trans hsame)
    · intro hcur
      have hsame := buildString_getters hcur
      exact ⟨(hcopy.mpr hcur).trans hsame.symm,hsame⟩

theorem step_ok (s : URI) (op : URIOp) : ∃ o t, s.step op = .ok (o,t) := by
  cases op with
  | setString uri =>
    obtain ⟨res,t,hset,-⟩ := setString_ok s uri
    exact ⟨.result res,t,by simp only [step, hset, ok_bind]⟩
  | setQuery query =>
    obtain ⟨params,hset⟩ := setQuery_ok s query
    exact ⟨.none,_,by simp only [step, hset, ok_bind]; rfl⟩
  | _ => exact ⟨_,_,rfl⟩

/-- Every call returns. -/
theorem storeStep_ok (m : Var → URI) (op : URIStoreOp Var) : ∃ o m', storeStep m op = .ok (o,m') := by
  cases op with
  | constructString v uri =>
    obtain ⟨res,t,hset,-⟩ := setString_ok init uri
    have hparse : ({ init with mFullString := uri } : URI).parseString = .ok (res,t) := hset
    have hconstruct : constructString uri = .ok t := by rw [constructString, hparse, ok_bind]
    exact ⟨.none,_,by rw [storeStep, hconstruct, ok_bind]⟩
  | call v op =>
    obtain ⟨o,t,hstep⟩ := step_ok (m v) op
    exact ⟨o,_,by rw [storeStep, hstep, ok_bind]⟩
  | _ => exact ⟨_,_,rfl⟩

theorem copies_iff (m : Var → URI) (op : URIStoreOp Var) : Copies m op ↔ Clean m op := by
  -- the result of a call is the one that the step gives
  have hcopies (o : URIOutput) (m' : Var → URI) (P : (Var → URI) → Prop)
      (hstep : storeStep m op = .ok (o,m')) :
      (∃ o m', storeStep m op = .ok (o,m') ∧ P m') ↔ P m' := by
    constructor
    · rintro ⟨o',t,ht,hP⟩
      obtain ⟨-,rfl⟩ := Prod.mk.inj (Except.ok.inj (ht.symm.trans hstep))
      exact hP
    · intro hP
      exact ⟨o,m',hstep,hP⟩
  cases op with
  | copyConstruct v u =>
    apply (hcopies _ _ (fun m' => v ≠ u → Copied m m' v u) rfl).trans
    apply forall_congr'
    intro h
    have hsource : Function.update m v init u = m u := Function.update_of_ne (Ne.symm h) init m
    have hcopied := copied_iff (Function.update m v init) v u
    rw [Copied, hsource] at hcopied
    exact hcopied.trans (and_iff_left (fun hvu => absurd hvu h))
  | assign v u => exact (hcopies _ _ (fun m' => Copied m m' v u) rfl).trans (copied_iff m v u)
  | _ =>
    obtain ⟨o,m',hstep⟩ := storeStep_ok m _
    exact iff_of_true ⟨o,m',hstep,trivial⟩ trivial

/-- Whatever is constructed, set and copied, and in what order: each copy along the way shows what
its source shows, and leaves that as it was, exactly if each is a clean one. -/
theorem copies_throughout_iff (m : Var → URI) (ops : List (URIStoreOp Var)) :
    Guarded storeStep Copies m ops ↔ Guarded storeStep Clean m ops := by
  have hiff : (Copies : (Var → URI) → URIStoreOp Var → Prop) = Clean := by
    funext m op
    exact propext (copies_iff m op)
  rw [hiff]

/-- The copy of a URI whose parameter has been removed has the query of before. -/
theorem removed_param_copied :
    ¬∀ ops : List (URIStoreOp Bool), Guarded storeStep Copies (fun _ => init) ops := by
  intro h
  have hrun : ∃ os m, run storeStep (fun _ : Bool => init)
      [.call false (.setQuery ['k','=','v']),.call false (.removeQueryParam ['k'])] = .ok (os,m) ∧
      m false = { init with mModifiedQuery := true, mQueryString := ['k','=','v'] } :=
    ⟨_,_,rfl,by decide⟩
  obtain ⟨os,m,hrun,hm⟩ := hrun
  obtain ⟨o,m',hstep,hshow,-⟩ := (h (_ ++ [.assign true false])).last hrun
  obtain ⟨-,rfl⟩ := Prod.mk.inj (Except.ok.inj hstep)
  have hquery := congrArg URIGetters.query hshow
  rw [getters, getters, copyInto_target m (by decide), copyInto_source m (by decide), hm] at hquery
  exact absurd hquery (by decide)

end URI

end JhCommon
