import JhCommon.URIParse

/-! Runs of setters and getters on one URI: when its string is the assembly of its components,
and when its three views of the query tell of one parameter list. -/
namespace JhCommon
open Transition

/-- The calls on a URI that write to it, its const ones among them. -/
inductive URIOp
  | setString (uri : Str)
  | setScheme (scheme : Str)
  | setAuthority (authority : Str)
  | setPath (path : Str) (relative : Bool)
  | setQuery (query : Str)
  | setFragment (fragment : Str)
  | appendQueryParam (key value : Str)
  | removeQueryParam (key : Str)
  | getString
  | getQuery
  | getQueryParam (key : Str)
  | getPathAndQuery
  | compare (other : URI)

inductive URIOutput
  | none
  | result (res : Bool)
  | text (str : Str)
  deriving DecidableEq

namespace URI

def step (s : URI) : URIOp → Exec (URIOutput × URI)
  | .setString uri => do
    let (res,s) ← s.setString uri
    .ok (.result res,s)
  | .setScheme scheme => .ok (.none,s.setScheme scheme)
  | .setAuthority authority => .ok (.none,s.setAuthority authority)
  | .setPath path relative => .ok (.none,s.setPath path relative)
  | .setQuery query => do
    let s ← s.setQuery query
    .ok (.none,s)
  | .setFragment fragment => .ok (.none,s.setFragment fragment)
  | .appendQueryParam key value => .ok (.none,s.appendQueryParam key value)
  | .removeQueryParam key => .ok (.none,s.removeQueryParam key)
  | .getString => .ok (.text s.getString.1,s.getString.2)
  | .getQuery => .ok (.text s.getQuery.1,s.getQuery.2)
  | .getQueryParam key => .ok (.text (s.getQueryParam key),s)
  | .getPathAndQuery => .ok (.text s.getPathAndQuery,s)
  | .compare other => .ok (.result (s.eq other).1,(s.eq other).2.1)

theorem removeQueryParam_eq (s : URI) (key : Str) : s.removeQueryParam key =
    { s with mQueryParams := s.mQueryParams.eraseP (·.mKey = key), mModifiedQuery := true } := by
  rw [List.eraseP_eq_eraseIdx]
  unfold removeQueryParam findParam
  cases s.mQueryParams.findIdx? (·.mKey = key) <;> rfl

theorem getQueryParam_eq (s : URI) (key : Str) :
    s.getQueryParam key = lookupParam s.mQueryParams key := by
  rw [lookupParam, List.find?_eq_bind_findIdx?_getElem?]
  unfold getQueryParam findParam
  cases s.mQueryParams.findIdx? (·.mKey = key) <;> rfl

theorem setQuery_ok (s : URI) (query : Str) : ∃ params, s.setQuery query =
    .ok { s with mQueryString := query, mModifiedQuery := false, mQueryParams := params } := by
  obtain ⟨res,params,hparse⟩ := parseQuery_ok { s with mQueryString := query }
  exact ⟨params,by rw [setQuery, hparse, ok_bind]⟩

/-- A flush changes the two caches and their flags only, and no view of the components. -/
theorem buildQuery_eq (s : URI) :
    s.buildQuery = { s with mQueryString := s.getQuery.1, mModifiedQuery := false } := by
  unfold getQuery buildQuery
  cases h : s.mModifiedQuery
  · obtain ⟨a,b,c,d,e,f,g,i,j,k⟩ := s
    obtain rfl : c = false := h
    rfl
  · rfl

theorem buildString_eq (s : URI) : s.buildString =
    if s.mModified = true then
      { s with
        mFullString := s.assemble, mModified := false
        mQueryString := s.getQuery.1, mModifiedQuery := false }
    else s := by
  cases h : s.mModified
  · simp [buildString, h]
  · have hstr := getString_of_modified h
    simp only [getString, buildString, h, Bool.true_eq_false, if_false] at hstr
    simp only [buildString, h, Bool.true_eq_false, if_false, hstr, if_true]
    rw [buildQuery_eq]

/-- The string that is told is the assembly of the components, and so is what is compared. -/
def Assembled (s : URI) : Prop :=
  s.getString.1 = s.assemble ∧
    ∀ other : URI, (s.eq other).1 = decide (s.assemble = other.getString.1)

theorem assembled_iff {s : URI} :
    s.Assembled ↔ s.mModified = true ∨ s.mFullString = s.assemble := by
  have hstr : s.Assembled ↔ s.getString.1 = s.assemble := by
    apply and_iff_left_of_imp
    intro h other
    rw [← h]
    rfl
  rw [hstr]
  cases h : s.mModified
  · simp [getString, buildString, h]
  · simp [getString_of_modified h]

/-- When a call keeps the string up to date: a new query, from `setQuery` or `removeQueryParam`,
is met by a flag that is already set, or is the old one. -/
def Marks (s : URI) : URIOp → Prop
  | .setString uri => ∀ res t, init.setString uri = .ok (res,t) → t.assemble = uri
  | .setQuery query => s.mModified = true ∨ query = s.getQuery.1
  | .removeQueryParam key => s.mModified = true ∨
      joinParams (s.mQueryParams.eraseP (·.mKey = key)) = s.getQuery.1
  | _ => True

theorem assembleText_inj {scheme authority path query query' fragment : Str} :
    assembleText scheme authority path query fragment =
      assembleText scheme authority path query' fragment ↔ query = query' := by
  unfold assembleText
  rw [List.append_left_inj, List.append_right_inj]
  split_ifs <;> simp_all [eq_comm]

/-- A change of the query alone, with the flag left as it is. -/
theorem assembled_of_query {s : URI} (hs : s.Assembled) (t : URI) (hmod : t.mModified = s.mModified)
    (hfull : t.mFullString = s.mFullString) (hscheme : t.mScheme = s.mScheme)
    (hauth : t.mAuthority = s.mAuthority) (hpath : t.mPath = s.mPath)
    (hfrag : t.mFragment = s.mFragment) :
    t.Assembled ↔ s.mModified = true ∨
      (if t.mModifiedQuery = true then joinParams t.mQueryParams else t.mQueryString) =
        s.getQuery.1 := by
  rw [assembled_iff, hmod]
  by_cases hm : s.mModified = true
  · exact iff_of_true (.inl hm) (.inl hm)
  · have hcache := (assembled_iff.mp hs).resolve_left hm
    rw [or_iff_right hm, or_iff_right hm, hfull, hcache, assemble, assemble, hscheme, hauth, hpath,
      hfrag, assembleText_inj, getQuery_eq t]
    exact eq_comm

/-- A call on a URI whose string is up to date keeps it so exactly if it marks what it changes. -/
theorem step_assembled (s : URI) (op : URIOp) (hs : s.Assembled) :
    ∃ o t, s.step op = .ok (o,t) ∧ (t.Assembled ↔ s.Marks op) := by
  -- most calls set the flag or leave everything as it is
  have hmodified (t : URI) (ht : t.mModified = true) : t.Assembled ↔ True :=
    iff_true_intro (assembled_iff.mpr (.inl ht))
  have hsame : s.Assembled ↔ True := iff_true_intro hs
  have hbuild : s.buildString.Assembled := by
    rw [buildString_eq]
    split_ifs with hm
    · exact assembled_iff.mpr (.inr rfl)
    · exact hs
  cases op with
  | setString uri =>
    obtain ⟨res,t,hset,hfull,hmod,-,-⟩ := setString_ok s uri
    refine ⟨.result res,t,by simp only [step, hset, ok_bind],?_⟩
    have hinit : init.setString uri = .ok (res,t) := hset
    rw [assembled_iff, hmod, or_iff_right (by simp), hfull, Marks]
    constructor
    · intro heq res' t' ht'
      obtain ⟨rfl,rfl⟩ := Prod.mk.inj (Except.ok.inj (hinit.symm.trans ht'))
      exact heq.symm
    · intro h
      exact (h res t hinit).symm
  | setScheme scheme => exact ⟨_,_,rfl,hmodified _ rfl⟩
  | setAuthority authority => exact ⟨_,_,rfl,hmodified _ rfl⟩
  | setPath path relative => exact ⟨_,_,rfl,hmodified _ rfl⟩
  | setQuery query =>
    obtain ⟨params,hset⟩ := setQuery_ok s query
    refine ⟨.none,_,by simp only [step, hset, ok_bind]; rfl,?_⟩
    exact assembled_of_query hs { s with
      mQueryString := query, mModifiedQuery := false, mQueryParams := params } rfl rfl rfl rfl rfl rfl
  | setFragment fragment => exact ⟨_,_,rfl,hmodified _ rfl⟩
  | appendQueryParam key value => exact ⟨_,_,rfl,hmodified _ rfl⟩
  | removeQueryParam key =>
    refine ⟨.none,_,rfl,?_⟩
    rw [removeQueryParam_eq]
    exact assembled_of_query hs { s with
      mQueryParams := s.mQueryParams.eraseP (·.mKey = key), mModifiedQuery := true } rfl rfl rfl rfl
      rfl rfl
  | getString => exact ⟨_,_,rfl,iff_true_intro hbuild⟩
  | getQuery =>
    refine ⟨_,_,rfl,iff_true_intro ?_⟩
    have hflush : s.getQuery.2 = { s with mQueryString := s.getQuery.1, mModifiedQuery := false } :=
      buildQuery_eq s
    rw [hflush]
    exact (assembled_of_query hs { s with
      mQueryString := s.getQuery.1, mModifiedQuery := false } rfl rfl rfl rfl rfl rfl).mpr (.inr rfl)
  | getQueryParam key => exact ⟨_,_,rfl,hsame⟩
  | getPathAndQuery => exact ⟨_,_,rfl,hsame⟩
  | compare other => exact ⟨_,_,rfl,iff_true_intro hbuild⟩

/-- All along a run the string is the assembly of the components exactly if it is marked or up to
date at the start and each call marks what it changes. -/
theorem assembled_throughout_iff (s : URI) (ops : List URIOp) :
    Throughout step Assembled s ops ↔
      (s.mModified = true ∨ s.mFullString = s.assemble) ∧ Guarded step Marks s ops := by
  rw [← assembled_iff]
  have hiff : s.Assembled → (Throughout step Assembled s ops ↔ Guarded step Marks s ops) := by
    intro hs
    apply throughout_iff_guarded Marks (fun _ h => h) _ hs
    intro s op hs
    obtain ⟨o,t,hstep,hmarks⟩ := step_assembled s op hs
    exact ⟨o,t,hstep,hmarks.mpr,hmarks.mp⟩
  constructor
  · intro h
    have hs : s.Assembled := by
      cases ops with
      | nil => exact h
      | cons op ops => exact h.1
    exact ⟨hs,(hiff hs).mp h⟩
  · rintro ⟨hs,hg⟩
    exact (hiff hs).mpr hg

/-- `getString` after `setQuery` tells the string of before. -/
theorem setQuery_not_told : ¬∀ ops : List URIOp, Throughout step Assembled init ops := by
  intro h
  obtain ⟨-,o,s,hs,-,o',s',hs',-,o'',s'',hs'',ht⟩ :=
    h [.setScheme ['a'],.getString,.setQuery ['b','=','c']]
  have hrun : run step init [.setScheme ['a'],.getString,.setQuery ['b','=','c']] =
      .ok ([o,o',o''],s'') := by
    simp only [run, hs, hs', hs'', ok_bind]
  have hval : run step init [.setScheme ['a'],.getString,.setQuery ['b','=','c']] = .ok
      ([.none,.text ['a',':'],.none],{ init with
        mFullString := ['a',':'], mScheme := ['a'], mQueryString := ['b','=','c']
        mQueryParams := [⟨['b'],['c']⟩] }) := by decide
  obtain ⟨-,rfl⟩ := Prod.mk.inj (Except.ok.inj (hval.symm.trans hrun))
  exact absurd ht.1 (by decide)

end URI

/-- A URI as its query shows it: the path, and one parameter list. -/
structure QueryView where
  path : Str
  params : List QueryParam

namespace QueryView

/-- What the calls do to the parameter list, and what the three views tell of it. -/
def Step (v : QueryView) (op : URIOp) (o : URIOutput) (v' : QueryView) : Prop :=
  match op with
  | .setString uri => (∀ p ∈ v'.params, p.Free) ∧ ∃ t, URI.init.setString uri = .ok (true,t) ∧
      v'.path = t.mPath ∧ joinParams v'.params = t.mQueryString
  | .setPath path relative =>
    v' = { v with path := if path.head? ≠ some '/' ∧ relative = false then '/' :: path else path }
  | .setQuery query => v'.path = v.path ∧ (∀ p ∈ v'.params, p.Free) ∧ joinParams v'.params = query
  | .appendQueryParam key value => v' = { v with params := v.params ++ [⟨key,value⟩] }
  | .removeQueryParam key => v' = { v with params := v.params.eraseP (·.mKey = key) }
  | .getQuery => v' = v ∧ o = .text (joinParams v.params)
  | .getQueryParam key => v' = v ∧ o = .text (lookupParam v.params key)
  | .getPathAndQuery => v' = v ∧ o = .text
      (if joinParams v.params = [] then v.path else v.path ++ '?' :: joinParams v.params)
  | _ => v' = v

end QueryView

/-- Arguments that tell of parameters which can be read back. -/
def URIOp.Free : URIOp → Prop
  | .setString uri => ∃ res t params, URI.init.setString uri = .ok (res,t) ∧
      (∀ p ∈ params, p.Free) ∧ t.mQueryString = joinParams params
  | .setQuery query => ∃ params, (∀ p ∈ params, p.Free) ∧ query = joinParams params
  | .appendQueryParam key value => QueryParam.Free ⟨key,value⟩
  | _ => True

namespace URI

/-- The views agree on the list: the parameters that are held, and the text of the query. -/
def Shows (s : URI) (v : QueryView) : Prop :=
  s.getPath = v.path ∧ s.mQueryParams = v.params ∧ s.getQuery.1 = joinParams v.params

/-- A new query meets an empty list, or is empty itself, and `getPathAndQuery` meets a query
string without a change to flush. -/
def Flushed (s : URI) : URIOp → Prop
  | .setQuery query => s.mQueryParams = [] ∨ query = []
  | .getPathAndQuery => s.mModifiedQuery = true → s.mQueryString = joinParams s.mQueryParams
  | _ => True

theorem Shows.query_eq {s : URI} {v : QueryView} (h : s.Shows v) :
    s.mModifiedQuery = true ∨ s.mQueryString = joinParams v.params := by
  have hquery := h.2.2
  rw [getQuery_eq] at hquery
  by_cases hm : s.mModifiedQuery = true
  · exact .inl hm
  · rw [if_neg hm] at hquery
    exact .inr hquery

theorem shows_of_query {s : URI} {v : QueryView} (hpath : s.mPath = v.path)
    (hparams : s.mQueryParams = v.params)
    (hquery : s.mModifiedQuery = true ∨ s.mQueryString = joinParams v.params) : s.Shows v := by
  refine ⟨hpath,hparams,?_⟩
  rw [getQuery_eq, hparams]
  split_ifs with hm
  · rfl
  · exact hquery.resolve_left hm

theorem getPathAndQuery_eq_iff {s : URI} {v : QueryView} (h : s.Shows v) : s.getPathAndQuery =
      (if joinParams v.params = [] then v.path else v.path ++ '?' :: joinParams v.params) ↔
    s.mQueryString = joinParams v.params := by
  have hpath : s.mPath = v.path := h.1
  rw [getPathAndQuery, hpath]
  split_ifs <;> simp_all [eq_comm]

/-- A new query is added to the list that is there. -/
theorem setQuery_join {s : URI} {params : List QueryParam} (hfree : ∀ p ∈ params, p.Free) :
    s.setQuery (joinParams params) = .ok { s with
      mQueryString := joinParams params
      mModifiedQuery := false
      mQueryParams := if params = [] then [] else s.mQueryParams ++ params } := by
  rw [setQuery, parseQuery_join hfree rfl, ok_bind]

/-- One call follows the list exactly if it meets a flushed state. -/
theorem step_shows (s : URI) (v : QueryView) (op : URIOp) (h : s.Shows v) (hfree : op.Free) :
    (∃ o s' v', s.step op = .ok (o,s') ∧ v.Step op o v' ∧ s'.Shows v') ↔ s.Flushed op := by
  have hpath := h.1
  have hparams := h.2.1
  have hquery := h.query_eq
  have hbuild : s.buildString.Shows v := by
    rw [buildString_eq]
    split_ifs
    · exact shows_of_query hpath hparams (.inr h.2.2)
    · exact h
  cases op with
  | setString uri =>
    obtain ⟨res,t,params,hset,hp,hq⟩ := hfree
    obtain ⟨res',t',hset',-,-,hmod,hback⟩ := setString_ok s uri
    obtain ⟨rfl,rfl⟩ := Prod.mk.inj (Except.ok.inj (hset'.symm.trans hset))
    obtain ⟨rfl,hlist⟩ := hback params hp hq
    apply iff_of_true _ trivial
    exact ⟨.result true,_,⟨_,params⟩,by simp only [step, hset', ok_bind],⟨hp,_,hset,rfl,hq.symm⟩,
      shows_of_query rfl hlist (.inr hq)⟩
  | setScheme scheme =>
    exact iff_of_true ⟨_,_,v,rfl,rfl,shows_of_query hpath hparams hquery⟩ trivial
  | setAuthority authority =>
    exact iff_of_true ⟨_,_,v,rfl,rfl,shows_of_query hpath hparams hquery⟩ trivial
  | setPath path relative =>
    exact iff_of_true ⟨_,_,_,rfl,rfl,shows_of_query rfl hparams hquery⟩ trivial
  | setQuery query =>
    obtain ⟨params,hp,rfl⟩ := hfree
    -- the parameters that are read are put behind those already there
    simp only [step, setQuery_join hp, ok_bind, Flushed, joinParams_eq_nil]
    constructor
    · rintro ⟨o,s',v',hs,⟨-,hp',hjoin⟩,hshow⟩
      obtain ⟨-,rfl⟩ := Prod.mk.inj (Except.ok.inj hs)
      obtain rfl := joinParams_injective hp' hp hjoin
      by_cases hnil : v'.params = []
      · exact .inr hnil
      · have hlist := hshow.2.1
        simp only [if_neg hnil] at hlist
        exact .inl (List.append_left_eq_self.mp hlist)
    · intro hflush
      refine ⟨_,_,⟨v.path,params⟩,rfl,⟨rfl,hp,rfl⟩,shows_of_query hpath ?_ (.inr rfl)⟩
      simp only
      split_ifs with hnil
      · exact hnil.symm
      · rw [hflush.resolve_right hnil, List.nil_append]
  | setFragment fragment =>
    exact iff_of_true ⟨_,_,v,rfl,rfl,shows_of_query hpath hparams hquery⟩ trivial
  | appendQueryParam key value =>
    exact iff_of_true ⟨_,_,_,rfl,rfl,
      shows_of_query hpath (show s.mQueryParams ++ [_] = v.params ++ [_] by rw [hparams])
        (.inl rfl)⟩ trivial
  | removeQueryParam key =>
    refine iff_of_true ⟨_,_,_,rfl,rfl,?_⟩ trivial
    rw [removeQueryParam_eq]
    exact shows_of_query hpath (congrArg (List.eraseP (·.mKey = key)) hparams) (.inl rfl)
  | getString => exact iff_of_true ⟨_,_,v,rfl,rfl,hbuild⟩ trivial
  | getQuery =>
    refine iff_of_true ⟨_,_,v,rfl,⟨rfl,by rw [h.2.2]⟩,?_⟩ trivial
    have hflush : s.getQuery.2 = { s with mQueryString := s.getQuery.1, mModifiedQuery := false } :=
      buildQuery_eq s
    rw [hflush]
    exact shows_of_query hpath hparams (.inr h.2.2)
  | getQueryParam key =>
    refine iff_of_true ⟨_,_,v,rfl,⟨rfl,?_⟩,h⟩ trivial
    rw [getQueryParam_eq, hparams]
  | getPathAndQuery =>
    -- the stored query is told here, flushed or not
    have hiff := getPathAndQuery_eq_iff h
    simp only [step, Flushed, hparams]
    constructor
    · rintro ⟨o,s',v',hs,⟨-,ho⟩,-⟩ -
      obtain ⟨rfl,-⟩ := Prod.mk.inj (Except.ok.inj hs)
      exact hiff.mp (URIOutput.text.inj ho)
    · intro hflush
      have hsame : s.mQueryString = joinParams v.params := hquery.elim hflush id
      exact ⟨_,_,v,rfl,⟨rfl,by rw [hiff.mpr hsame]⟩,h⟩
  | compare other => exact iff_of_true ⟨_,_,v,rfl,rfl,hbuild⟩ trivial

/-- From an empty URI on, the three views follow one parameter list all along a run exactly if
each call of it meets a flushed state. -/
theorem query_simulated_iff (ops : List URIOp) (hops : ∀ op ∈ ops, op.Free) :
    Simulated step QueryView.Step Shows init ⟨[],[]⟩ ops ↔ Guarded step Flushed init ops :=
  simulated_iff_guarded URIOp.Free Flushed step_shows ⟨rfl,rfl,rfl⟩ ops hops

/-- A query, one more parameter, a look at the query and one at the path with it. -/
theorem query_simulated_append :
    Simulated step QueryView.Step Shows init ⟨[],[]⟩
      [.setQuery ['a','=','b'],.appendQueryParam ['c'] [],.getQuery,.getPathAndQuery] := by
  apply (query_simulated_iff _ ?_).mpr
  · refine ⟨.inl rfl,?_⟩
    intro o s hs
    refine ⟨trivial,?_⟩
    intro o' s' hs'
    refine ⟨trivial,?_⟩
    intro o'' s'' hs''
    obtain ⟨-,rfl⟩ := Prod.mk.inj (Except.ok.inj hs')
    obtain ⟨-,rfl⟩ := Prod.mk.inj (Except.ok.inj hs'')
    exact ⟨nofun,fun _ _ _ => trivial⟩
  · simp only [List.forall_mem_cons, List.not_mem_nil, false_imp_iff, implies_true, and_true]
    refine ⟨⟨[⟨['a'],['b']⟩],?_,rfl⟩,?_,trivial,trivial⟩
    · intro p hp
      rw [List.mem_singleton] at hp
      subst hp
      constructor <;> decide
    · constructor <;> decide

/-- The parameters of the old query stay when a new one is set. -/
theorem query_views_disagree : ¬∀ ops : List URIOp, (∀ op ∈ ops, op.Free) →
    Simulated step QueryView.Step Shows init ⟨[],[]⟩ ops := by
  intro h
  have hfree (k v : Char) (hp : QueryParam.Free ⟨[k],[v]⟩) : (URIOp.setQuery [k,'=',v]).Free := by
    refine ⟨[⟨[k],[v]⟩],?_,rfl⟩
    intro p hmem
    exact List.mem_singleton.mp hmem ▸ hp
  obtain ⟨-,o,s,v,hs,-,-,o',s',v',hs',⟨-,-,hjoin⟩,hshow⟩ :=
    h [.setQuery ['a','=','b'],.setQuery ['c','=','d']] (by
      simp only [List.forall_mem_cons, List.not_mem_nil, false_imp_iff, implies_true, and_true]
      exact ⟨hfree _ _ (by constructor <;> decide),hfree _ _ (by constructor <;> decide)⟩)
  have hrun : run step init [.setQuery ['a','=','b'],.setQuery ['c','=','d']] = .ok ([o,o'],s') := by
    simp only [run, hs, hs', ok_bind]
  have hval : run step init [.setQuery ['a','=','b'],.setQuery ['c','=','d']] = .ok
      ([.none,.none],{ init with
        mQueryString := ['c','=','d'], mQueryParams := [⟨['a'],['b']⟩,⟨['c'],['d']⟩] }) := by decide
  obtain ⟨-,rfl⟩ := Prod.mk.inj (Except.ok.inj (hval.symm.trans hrun))
  rw [← hshow.2.1] at hjoin
  exact absurd hjoin (by decide)

-- A parameter that was appended is seen by `getPathAndQuery` after a look at the query only.
example : run step init [.appendQueryParam ['a'] ['b'],.getPathAndQuery,
      .getQuery,.getPathAndQuery] = .ok
    ([.none,.text [],.text ['a','=','b'],.text ['?','a','=','b']],{ init with
      mModified := true, mQueryString := ['a','=','b'], mQueryParams := [⟨['a'],['b']⟩] }) := by
  decide

end URI

end JhCommon
