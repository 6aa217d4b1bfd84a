import JhCommon.URIQuery

/-! The parser of URIs: it returns on every string, and undoes the builder. -/
namespace JhCommon
namespace URI

theorem parseScheme_ok (s : URI) : ∃ scheme start, s.parseScheme =
    .ok ({ s with mScheme := scheme },start) ∧ start ≤ s.mFullString.length := by
  unfold parseScheme
  cases hoff : s.mFullString.find [':'] 0 with
  | none => exact ⟨s.mScheme,0,rfl,Nat.zero_le _⟩
  | some off =>
    have hlt := Str.lt_of_find hoff
    simp only [Str.substr_some (Nat.zero_le _), ok_bind]
    exact ⟨_,_,rfl,by omega⟩

theorem findAuthority_le {s : URI} {start : ℕ} (h : start ≤ s.mFullString.length) :
    (s.findAuthority start).2.1 ≤ s.mFullString.length := by
  unfold findAuthority
  split_ifs with hslash
  · have hlen := (Str.prefix_of_find hslash).length_le
    simp only [List.length_cons, List.length_nil, List.length_drop] at hlen
    simp only
    omega
  · exact h
  · exact h
  · exact h

theorem parseAuthority_ok (s : URI) {start : ℕ} (h : start ≤ s.mFullString.length) :
    ∃ relative authority next, s.parseAuthority start =
      .ok ({ s with mRelative := relative, mAuthority := authority },next) := by
  have hle := findAuthority_le h
  unfold parseAuthority
  generalize s.findAuthority start = found at hle ⊢
  obtain ⟨hasAuth,start',relative⟩ := found
  by_cases hauth : hasAuth = true
  · obtain ⟨authority,hsub⟩ := Str.substr_ok hle
      ((s.mFullString.find ['/'] start').map (·-start'))
    refine ⟨relative,authority,s.mFullString.find ['/'] start',?_⟩
    simp only [hauth, if_true]
    rw [hsub, ok_bind]
  · refine ⟨relative,s.mAuthority,some start',?_⟩
    simp only [if_neg hauth]

/-- If the query string can be read back, it is. -/
def ReadsBack (res : Bool) (t : URI) : Prop :=
  ∀ params : List QueryParam, (∀ p ∈ params, p.Free) → t.mQueryString = joinParams params →
    res = true ∧ t.mQueryParams = params

theorem readsBack_nil {t : URI} (hq : t.mQueryString = []) (hp : t.mQueryParams = []) :
    ReadsBack true t := by
  intro params _ hparams
  rw [hq] at hparams
  rw [joinParams_eq_nil.mp hparams.symm]
  exact ⟨rfl,hp⟩

theorem parseQuery_readsBack {s t : URI} {res : Bool} (hp : s.mQueryParams = [])
    (h : s.parseQuery = .ok (res,t)) : ReadsBack res t := by
  obtain ⟨res',params',hok⟩ := parseQuery_ok s
  obtain ⟨rfl,rfl⟩ := Prod.mk.inj (Except.ok.inj (hok.symm.trans h))
  intro params hfree hparams
  have hjoin := parseQuery_join (s := s) hfree hparams
  obtain ⟨hres,ht⟩ := Prod.mk.inj (Except.ok.inj (hjoin.symm.trans h))
  refine ⟨hres.symm,?_⟩
  rw [← ht, hp]
  split_ifs with hnil
  · exact hnil.symm
  · rfl

theorem parsePath_ok {s : URI} (start : ℕ) (hq : s.mQueryString = []) (hp : s.mQueryParams = [])
    (hm : s.mModifiedQuery = false) :
    ∃ res, ∃ t : URI, s.parsePath start = .ok (res,t) ∧ t.mFullString = s.mFullString ∧
      t.mModified = s.mModified ∧ t.mModifiedQuery = false ∧ ReadsBack res t := by
  unfold parsePath
  by_cases hstart : start < s.mFullString.length
  · obtain ⟨path,hpath⟩ := Str.substr_ok hstart.le
      ((s.mFullString.find ['?'] start).map (·-start))
    simp only [if_pos hstart, hpath, ok_bind]
    cases hoff : s.mFullString.find ['?'] start with
    | none => exact ⟨_,_,rfl,rfl,rfl,hm,readsBack_nil hq hp⟩
    | some off =>
      have hlt := Str.lt_of_find hoff
      obtain ⟨query,hsub⟩ := Str.substr_ok (s := s.mFullString) (show off+1 ≤ _ from hlt.2)
        ((s.mFullString.find ['#'] (off+1)).map (·-(off+1)))
      obtain ⟨res,params,hquery⟩ := parseQuery_ok { s with mPath := path, mQueryString := query }
      have hback := parseQuery_readsBack (s := { s with mPath := path, mQueryString := query }) hp hquery
      simp only [hsub, ok_bind, hquery]
      cases res with
      | false => exact ⟨_,_,rfl,rfl,rfl,rfl,hback⟩
      | true =>
        cases hhash : s.mFullString.find ['#'] (off+1) with
        | none => exact ⟨_,_,rfl,rfl,rfl,rfl,hback⟩
        | some hash =>
          have hhlt := Str.lt_of_find hhash
          simp only [Bool.true_eq_false, if_false,
            Str.substr_none (show hash+1 ≤ s.mFullString.length from hhlt.2), ok_bind]
          exact ⟨_,_,rfl,rfl,rfl,rfl,hback⟩
  · rw [if_neg hstart]
    exact ⟨_,_,rfl,rfl,rfl,hm,readsBack_nil hq hp⟩

theorem setString_eq (s : URI) (uri : Str) : s.setString uri = (do
    let (s,start) ← { init with mFullString := uri }.parseScheme
    let (s,start) ← s.parseAuthority start
    match start with
    | none => .ok (true,s)
    | some start => s.parsePath start) := rfl

/-- A URI is parsed from any string, and starts with nothing to flush. -/
theorem setString_ok (s : URI) (uri : Str) : ∃ res, ∃ t : URI, s.setString uri = .ok (res,t) ∧
    t.mFullString = uri ∧ t.mModified = false ∧ t.mModifiedQuery = false ∧ ReadsBack res t := by
  let s₀ : URI := { init with mFullString := uri }
  obtain ⟨scheme,start,hscheme,hstart⟩ := parseScheme_ok s₀
  obtain ⟨relative,authority,next,hauth⟩ := parseAuthority_ok { s₀ with mScheme := scheme } hstart
  rw [setString_eq, hscheme, ok_bind]
  simp only [hauth, ok_bind]
  cases next with
  | none => exact ⟨_,_,rfl,rfl,rfl,rfl,readsBack_nil rfl rfl⟩
  | some next =>
    exact parsePath_ok (s := { s₀ with
      mScheme := scheme, mRelative := relative, mAuthority := authority }) next rfl rfl rfl

/-- The build rules: how the components make a string. -/
def assembleText (scheme authority path query fragment : Str) : Str :=
  (if scheme ≠ [] then scheme ++ [':'] else []) ++
  (if authority ≠ [] then
    (if scheme ≠ mailto ∧ scheme ≠ news then ['/','/'] else []) ++ authority else []) ++
  path ++ (if query ≠ [] then '?' :: query else []) ++ (if fragment ≠ [] then '#' :: fragment else [])

/-- The string of the present components. -/
def assemble (s : URI) : Str :=
  assembleText s.mScheme s.mAuthority s.mPath s.getQuery.1 s.mFragment

theorem getQuery_eq (s : URI) : s.getQuery.1 =
    if s.mModifiedQuery = true then joinParams s.mQueryParams else s.mQueryString := by
  unfold getQuery buildQuery
  cases s.mModifiedQuery <;> simp [appendParams_zero]

theorem append_ite (c : Prop) [Decidable c] (s a : Str) :
    (if c then s ++ a else s) = s ++ if c then a else [] := by
  split
  · rfl
  · exact (List.append_nil s).symm

theorem append_append_ite (c : Prop) [Decidable c] (s a b : Str) :
    (if c then s ++ a ++ b else s) = s ++ if c then a ++ b else [] := by
  rw [List.append_assoc]
  exact append_ite c s (a ++ b)

theorem getString_of_modified {s : URI} (h : s.mModified = true) : s.getString.1 = s.assemble := by
  have hbuild : s.buildQuery.mFragment = s.mFragment := by
    unfold buildQuery
    split <;> rfl
  simp only [getString, buildString, h, Bool.true_eq_false, if_false, hbuild, assemble, assembleText,
    getQuery, append_ite, append_append_ite, List.cons_append, List.nil_append]
  rfl

theorem parseScheme_spec {s : URI} {scheme rest : Str} (hs : s.mFullString = scheme ++ ':' :: rest)
    (hcolon : ':' ∉ scheme) :
    s.parseScheme = .ok ({ s with mScheme := scheme },scheme.length+1) := by
  have hfind : s.mFullString.find [':'] 0 = some (0+scheme.length) :=
    Str.find_append (Nat.zero_le _) hs hcolon
  have htake : s.mFullString.take scheme.length = scheme := by rw [hs, List.take_left]
  simp only [parseScheme, hfind, Str.substr_some (Nat.zero_le _), ok_bind, Nat.zero_add,
    List.drop_zero, htake]

/-- Behind "//" stands the authority, up to the '/' of the path. -/
theorem parseAuthority_spec {s : URI} {start : ℕ} {authority path : Str}
    (hstart : start ≤ s.mFullString.length)
    (hs : s.mFullString.drop start = '/' :: '/' :: (authority ++ '/' :: path))
    (hslash : '/' ∉ authority) :
    s.parseAuthority start = .ok ({ s with mRelative := false, mAuthority := authority },
      some (start+2+authority.length)) := by
  have hauth : s.findAuthority start = (true,start+2,false) :=
    if_pos (Str.find_prefix hstart (by rw [hs]; exact List.prefix_append ['/','/'] _))
  have hdrop := Str.drop_add_of_drop (a := ['/','/']) (b := authority ++ '/' :: path) hs
  have hle := Str.le_length_of_drop (a := ['/','/']) (b := authority ++ '/' :: path) hs hstart
  have hfind := Str.find_append hle hdrop hslash
  simp only [List.length_cons, List.length_nil, Nat.zero_add, Nat.reduceAdd] at hdrop hle hfind
  simp only [parseAuthority, hauth, if_true, hfind, Option.map_some, Str.substr_some hle, ok_bind,
    Nat.add_sub_cancel_left, hdrop, List.take_left]

/-- The query and the fragment as they stand behind the path. -/
def queryText (params : List QueryParam) (fragment : Str) : Str :=
  if params = [] then [] else '?' :: (joinParams params ++ if fragment = [] then [] else '#' :: fragment)

theorem hash_not_mem_joinParams {params : List QueryParam} (hfree : ∀ p ∈ params, p.Free) :
    '#' ∉ joinParams params := by
  induction params with
  | nil => simp [joinParams]
  | cons p rest ih =>
    have hp := hfree p List.mem_cons_self
    have hrest := ih (fun r hr => hfree r (List.mem_cons_of_mem p hr))
    cases rest <;> simp [joinParams, hp.key_hash, hp.param_hash, hrest]

theorem parsePath_spec {s : URI} {start : ℕ} {path fragment : Str} {params : List QueryParam}
    (hstart : start ≤ s.mFullString.length)
    (hs : s.mFullString.drop start = path ++ queryText params fragment) (hpath : path ≠ [])
    (hmark : '?' ∉ path) (hfree : ∀ p ∈ params, p.Free) (hparams : s.mQueryParams = [])
    (hfrag : params = [] → fragment = []) (hfragment : s.mFragment = []) :
    ∃ t : URI, s.parsePath start = .ok (true,t) ∧ t.mScheme = s.mScheme ∧
      t.mAuthority = s.mAuthority ∧ t.mPath = path ∧ t.mQueryParams = params ∧
      t.mFragment = fragment := by
  have hle := Str.le_length_of_drop hs hstart
  have hpos := List.length_pos_of_ne_nil hpath
  unfold parsePath
  rw [if_pos (by omega)]
  -- without parameters there is no '?', and no fragment either
  by_cases hnil : params = []
  · rw [queryText, if_pos hnil, List.append_nil] at hs
    have hfind : s.mFullString.find ['?'] start = none := Str.find_eq_none (hs ▸ hmark)
    simp only [hfind, Option.map_none, Str.substr_none hstart, ok_bind]
    exact ⟨_,rfl,rfl,rfl,hs,hparams.trans hnil.symm,hfragment.trans (hfrag hnil).symm⟩
  · rw [queryText, if_neg hnil] at hs
    have hfind := Str.find_append hstart hs hmark
    have hdrop := Str.drop_add_of_drop (a := path ++ ['?']) (by simpa using hs)
    have hle' := Str.le_length_of_drop (a := path ++ ['?']) (by simpa using hs) hstart
    simp only [List.length_append, List.length_singleton, ← Nat.add_assoc] at hdrop hle'
    simp only [hfind, Option.map_some, Str.substr_some hstart, ok_bind, Nat.add_sub_cancel_left, hs,
      List.take_left]
    -- no parameter has a '#', so the first one ends the query
    have hhash := hash_not_mem_joinParams hfree
    by_cases hf : fragment = []
    · rw [if_pos hf, List.append_nil] at hdrop
      have hnone : s.mFullString.find ['#'] (start+path.length+1) = none :=
        Str.find_eq_none (hdrop ▸ hhash)
      simp only [hnone, Option.map_none, Str.substr_none hle', ok_bind, hdrop]
      rw [parseQuery_join hfree rfl, ok_bind]
      simp only [if_neg hnil, hparams, List.nil_append, Bool.true_eq_false, if_false]
      exact ⟨_,rfl,rfl,rfl,rfl,rfl,hfragment.trans hf.symm⟩
    · rw [if_neg hf] at hdrop
      have hfind' := Str.find_append hle' hdrop hhash
      have htail := Str.drop_add_of_drop (a := joinParams params ++ ['#']) (by simpa using hdrop)
      have hle'' := Str.le_length_of_drop (a := joinParams params ++ ['#']) (by simpa using hdrop) hle'
      simp only [List.length_append, List.length_singleton, ← Nat.add_assoc] at htail hle''
      simp only [hfind', Option.map_some, Str.substr_some hle', ok_bind, hdrop,
        Nat.add_sub_cancel_left, List.take_left]
      rw [parseQuery_join hfree rfl, ok_bind]
      simp only [if_neg hnil, hparams, List.nil_append, Bool.true_eq_false, if_false,
        Str.substr_none hle'', ok_bind, htail]
      exact ⟨_,rfl,rfl,rfl,rfl,rfl,rfl⟩

/-- An empty URI with these components set. -/
def ofComponents (scheme authority path : Str) (params : List QueryParam) (fragment : Str) : URI :=
  let s := ((init.setScheme scheme).setAuthority authority).setPath path false
  (params.foldl (fun s p => s.appendQueryParam p.mKey p.mParam) s).setFragment fragment

theorem foldl_appendQueryParam (s : URI)
    (hq : s.mModifiedQuery = false → s.mQueryString = joinParams s.mQueryParams)
    (params : List QueryParam) :
    ∃ t : URI, params.foldl (fun s p => s.appendQueryParam p.mKey p.mParam) s = t ∧
      t.mScheme = s.mScheme ∧ t.mAuthority = s.mAuthority ∧ t.mPath = s.mPath ∧
      t.getQuery.1 = joinParams (s.mQueryParams ++ params) := by
  induction params generalizing s with
  | nil =>
    refine ⟨s,rfl,rfl,rfl,rfl,?_⟩
    rw [getQuery_eq, List.append_nil]
    split_ifs with h
    · rfl
    · exact hq (by simpa using h)
  | cons p rest ih =>
    obtain ⟨t,ht,hscheme,hauth,hpath,hquery⟩ := ih (s.appendQueryParam p.mKey p.mParam) nofun
    refine ⟨t,ht,hscheme,hauth,hpath,?_⟩
    rw [hquery, appendQueryParam, List.append_assoc]
    rfl

/-- The string that a URI with these components gives. -/
theorem getString_ofComponents {scheme authority path fragment : Str} {params : List QueryParam}
    (hscheme : scheme ≠ []) (hmailto : scheme ≠ mailto) (hnews : scheme ≠ news)
    (hauth : authority ≠ []) (hfrag : params = [] → fragment = []) :
    (ofComponents scheme authority ('/' :: path) params fragment).getString.1 =
      scheme ++ ':' :: '/' :: '/' :: (authority ++ '/' :: (path ++ queryText params fragment)) := by
  let s := ((init.setScheme scheme).setAuthority authority).setPath ('/' :: path) false
  obtain ⟨t,ht,hts,hta,htp,htq⟩ := foldl_appendQueryParam s (fun _ => rfl) params
  have hof : ofComponents scheme authority ('/' :: path) params fragment = t.setFragment fragment := by
    rw [← ht]
    rfl
  have hquery : (t.setFragment fragment).getQuery.1 = joinParams params := by
    rw [getQuery_eq] at htq ⊢
    exact htq
  rw [hof, getString_of_modified rfl, assemble, hquery]
  simp only [setFragment, hts, hta, htp, assembleText]
  have hs : s.mScheme = scheme := rfl
  have ha : s.mAuthority = authority := rfl
  have hp : s.mPath = '/' :: path := rfl
  rw [hs, ha, hp, if_pos hscheme, if_pos hauth, if_pos ⟨hmailto,hnews⟩, queryText]
  by_cases hnil : params = []
  · simp [hnil, hfrag hnil, joinParams]
  · rw [if_pos (joinParams_eq_nil.not.mpr hnil), if_neg hnil]
    by_cases hf : fragment = []
    · simp [hf]
    · simp [hf]

/-- Setting components that keep clear of each other's separators, taking the string and parsing
it gives them back. -/
theorem setString_getString {scheme authority path fragment : Str} {params : List QueryParam}
    (hscheme : scheme ≠ []) (hcolon : ':' ∉ scheme) (hmailto : scheme ≠ mailto)
    (hnews : scheme ≠ news) (hauth : authority ≠ []) (hslash : '/' ∉ authority)
    (hpath : path.head? = some '/') (hmark : '?' ∉ path) (hfree : ∀ p ∈ params, p.Free) (hfrag : params = [] → fragment = []) :
    ∃ t, init.setString (ofComponents scheme authority path params fragment).getString.1 =
        .ok (true,t) ∧ t.getScheme = scheme ∧ t.getAuthority = authority ∧ t.getPath = path ∧
      t.mQueryParams = params ∧ t.getFragment = fragment := by
  obtain ⟨path,rfl⟩ : ∃ rest, path = '/' :: rest := by
    cases path with
    | nil => cases hpath
    | cons c rest => exact ⟨rest,by rw [Option.some.inj hpath]⟩
  rw [getString_ofComponents hscheme hmailto hnews hauth hfrag]
  obtain ⟨text,htext⟩ : ∃ text, text = scheme ++ ':' :: '/' :: '/' ::
    (authority ++ '/' :: (path ++ queryText params fragment)) := ⟨_,rfl⟩
  rw [← htext]
  let s : URI := { init with mFullString := text }
  -- what is left behind the scheme, and behind the authority
  have hlen : scheme.length+1 ≤ text.length := by
    rw [htext, List.length_append, List.length_cons]
    omega
  have hdrop : text.drop (scheme.length+1) =
      '/' :: '/' :: (authority ++ '/' :: (path ++ queryText params fragment)) := by
    rw [htext, List.append_cons]
    exact List.drop_left' (by simp)
  have hdrop' := Str.drop_add_of_drop (a := '/' :: '/' :: authority)
    (b := '/' :: (path ++ queryText params fragment)) hdrop
  have hle := Str.le_length_of_drop (a := '/' :: '/' :: authority)
    (b := '/' :: (path ++ queryText params fragment)) hdrop hlen
  rw [List.length_cons, List.length_cons, Nat.add_assoc authority.length, ← Nat.add_comm 2,
    ← Nat.add_assoc] at hdrop' hle
  rw [setString_eq, parseScheme_spec htext hcolon, ok_bind]
  simp only
  rw [parseAuthority_spec (s := { s with mScheme := scheme }) hlen hdrop hslash, ok_bind]
  simp only
  have hpathText : text.drop (scheme.length+1+2+authority.length) =
      ('/' :: path) ++ queryText params fragment := hdrop'
  obtain ⟨t,hparse,hts,hta,htp,htq,htf⟩ := parsePath_spec
    (s := { s with mScheme := scheme, mRelative := false, mAuthority := authority })
    hle hpathText (by simp) hmark hfree rfl hfrag rfl
  exact ⟨t,hparse,hts,hta,htp,htq,htf⟩

/-- Separators in later components, an empty key and an empty value: a://b:c/d:?=e=/&f=#g?#. -/
theorem setString_getString_separators :
    ∃ t, init.setString (ofComponents ['a'] ['b',':','c'] ['/','d',':']
        [⟨[],['e','=','/']⟩,⟨['f'],[]⟩] ['g','?','#']).getString.1 = .ok (true,t) ∧
      t.getScheme = ['a'] ∧ t.getAuthority = ['b',':','c'] ∧ t.getPath = ['/','d',':'] ∧
      t.mQueryParams = [⟨[],['e','=','/']⟩,⟨['f'],[]⟩] ∧ t.getFragment = ['g','?','#'] := by
  apply setString_getString <;> try decide
  intro p hp
  simp only [List.mem_cons, List.not_mem_nil, or_false] at hp
  rcases hp with rfl | rfl <;> constructor <;> decide

end URI

end JhCommon
