import JhCommon.ListCuts
import JhCommon.URIParse

/-! Where `parseString` cuts the path, the query and the fragment: a '#' is looked for only behind
a '?'. -/
namespace JhCommon

namespace Str

/-- The text in front of the first c. -/
def before (c : Char) (s : Str) : Str := s.takeWhile (· ≠ c)

/-- The text behind the first c, if there is one. -/
def behind (c : Char) (s : Str) : Str := (s.dropWhile (· ≠ c)).tail

section Cuts
variable {c : Char} {s a b : Str} {pos : ℕ}

theorem before_append (ha : c ∉ a) : before c (a ++ c :: b) = a := ListCuts.takeWhile_ne_append ha

theorem behind_append (ha : c ∉ a) : behind c (a ++ c :: b) = b := by
  rw [behind, ListCuts.dropWhile_ne_append ha, List.tail_cons]

theorem before_of_not_mem (hs : c ∉ s) : before c s = s := ListCuts.takeWhile_ne_self hs

theorem behind_of_not_mem (hs : c ∉ s) : behind c s = [] := by
  rw [behind, ListCuts.dropWhile_ne_self hs, List.tail_nil]

theorem not_mem_before (c : Char) (s : Str) : c ∉ before c s := by
  intro h
  simpa using List.mem_takeWhile_imp h

/-- A text without c in front changes nothing. -/
theorem behind_skip (ha : c ∉ a) (b : Str) : behind c (a ++ b) = behind c b := by
  rw [behind, List.dropWhile_append_of_pos (ListCuts.all_ne ha)]
  rfl

/-- What stands from the character on that is found. -/
theorem drop_find (s : Str) (c : Char) (pos : ℕ) :
    ((s.find [c] pos).map s.drop).getD [] = (s.drop pos).dropWhile (· ≠ c) := by
  cases hfind : s.find [c] pos with
  | none => exact (ListCuts.dropWhile_ne_self (not_mem_of_find_eq_none hfind)).symm
  | some i =>
    obtain ⟨hle,hlt,a,hdrop,hlen,ha⟩ := find_eq_some hfind
    have hat : s.drop i = c :: s.drop (i+1) := by
      have hadd := drop_add_of_drop hdrop
      rwa [hlen, Nat.add_sub_cancel' hle] at hadd
    rw [hdrop, ListCuts.dropWhile_ne_append ha]
    exact hat

end Cuts

end Str

/-- The scheme: what stands in front of the first ':'. -/
def schemeText (uri : Str) : Str := if ':' ∈ uri then uri.before ':' else []

def schemeRest (uri : Str) : Str := if ':' ∈ uri then uri.behind ':' else uri

/-- The path, the query and the fragment: what stands behind the scheme and the authority. There
is an authority behind "//", and behind a scheme where no '/' follows; it ends at a '/'. -/
def pathText (uri : Str) : Str :=
  let rest := schemeRest uri
  if ['/','/'] <+: rest then (rest.drop 2).dropWhile (· ≠ '/')
  else if ['/'] <+: rest ∨ schemeText uri = [] then rest
  else rest.dropWhile (· ≠ '/')

namespace URI

/-- The three parts are told apart at the first '?' and the first '#'. -/
structure Separated (uri : Str) (t : URI) : Prop where
  path_query : '?' ∉ t.mPath
  path_hash : '#' ∉ t.mPath
  query_hash : '#' ∉ t.mQueryString
  fragment : t.mFragment = (pathText uri).behind '#'

theorem parseScheme_text {s : URI} (hs : s.mScheme = []) : ∃ start, start ≤ s.mFullString.length ∧
    s.parseScheme = .ok ({ s with mScheme := schemeText s.mFullString },start) ∧
    s.mFullString.drop start = schemeRest s.mFullString := by
  unfold parseScheme schemeText schemeRest
  cases hfind : s.mFullString.find [':'] 0 with
  | none =>
    have hnot := Str.find_zero_eq_none.mp hfind
    refine ⟨0,Nat.zero_le _,?_,?_⟩
    · rw [if_neg hnot, ← hs]
    · rw [if_neg hnot, List.drop_zero]
  | some off =>
    obtain ⟨-,hlt,a,hdrop,hlen,ha⟩ := Str.find_eq_some hfind
    rw [List.drop_zero] at hdrop
    rw [Nat.sub_zero] at hlen
    have hmem : ':' ∈ s.mFullString := by
      rw [hdrop]
      simp
    have hbefore : s.mFullString.before ':' = s.mFullString.take off := by
      rw [hdrop, Str.before_append ha, ← hlen, List.take_left]
    have hbehind : s.mFullString.behind ':' = s.mFullString.drop (off+1) := by
      rw [hdrop, Str.behind_append ha, ← hdrop]
    refine ⟨off+1,hlt,?_,?_⟩
    · simp only [Str.substr_some (Nat.zero_le _), ok_bind, List.drop_zero, if_pos hmem, hbefore]
    · rw [if_pos hmem, hbehind]

/-- The position that `parseAuthority` gives is where the path starts. -/
theorem parseAuthority_text (s : URI) {start : ℕ} (hstart : start ≤ s.mFullString.length)
    (hscheme : s.mScheme = schemeText s.mFullString)
    (hrest : s.mFullString.drop start = schemeRest s.mFullString) :
    ∃ relative authority next, s.parseAuthority start =
        .ok ({ s with mRelative := relative, mAuthority := authority },next) ∧
      (next.map s.mFullString.drop).getD [] = pathText s.mFullString ∧
      ∀ n, next = some n → n ≤ s.mFullString.length := by
  -- a find that begins at start is a prefix of what is left
  have hfind (pat : Str) : s.mFullString.find pat start = some start ↔
      pat <+: schemeRest s.mFullString := by
    rw [← hrest]
    exact ⟨Str.prefix_of_find,Str.find_prefix hstart⟩
  have hauthority (from' : ℕ) (relative : Bool) (hfrom : from' ≤ s.mFullString.length) :
      ∃ authority, (do
        let off := s.mFullString.find ['/'] from'
        let authority ← s.mFullString.substr from' (off.map (·-from'))
        Except.ok ({ s with mRelative := relative, mAuthority := authority },off) : Exec _) =
          .ok ({ s with mRelative := relative, mAuthority := authority },s.mFullString.find ['/'] from') ∧
      ((s.mFullString.find ['/'] from').map s.mFullString.drop).getD [] =
        (s.mFullString.drop from').dropWhile (· ≠ '/') ∧
      ∀ n, s.mFullString.find ['/'] from' = some n → n ≤ s.mFullString.length := by
    obtain ⟨authority,hsub⟩ := Str.substr_ok hfrom ((s.mFullString.find ['/'] from').map (·-from'))
    refine ⟨authority,?_,Str.drop_find _ _ _,fun n hn => (Str.lt_of_find hn).2.le⟩
    simp only [hsub, ok_bind]
  unfold pathText
  -- the tests come in the order of the source
  by_cases hslashes : ['/','/'] <+: schemeRest s.mFullString
  · have hlen := hslashes.length_le
    rw [← hrest, List.length_drop] at hlen
    simp only [List.length_cons, List.length_nil] at hlen
    obtain ⟨authority,hread,hnext,hle⟩ := hauthority (start+2) false (by omega)
    refine ⟨false,authority,_,?_,?_,hle⟩
    · simp only [parseAuthority, findAuthority, (hfind _).mpr hslashes, if_true]
      exact hread
    · rw [hnext, if_pos hslashes, ← hrest, List.drop_drop]
  · rw [if_neg hslashes]
    by_cases hslash : ['/'] <+: schemeRest s.mFullString
    · refine ⟨false,s.mAuthority,some start,?_,?_,?_⟩
      · simp [parseAuthority, findAuthority, (hfind _).not.mpr hslashes, (hfind _).mpr hslash]
      · rw [if_pos (.inl hslash)]
        exact hrest
      · rintro n hn
        exact Option.some.inj hn ▸ hstart
    · by_cases hnone : s.mScheme = []
      · refine ⟨true,s.mAuthority,some start,?_,?_,?_⟩
        · simp [parseAuthority, findAuthority, (hfind _).not.mpr hslashes, (hfind _).not.mpr hslash, hnone]
        · rw [if_pos (.inr (hscheme ▸ hnone))]
          exact hrest
        · rintro n hn
          exact Option.some.inj hn ▸ hstart
      · obtain ⟨authority,hread,hnext,hle⟩ := hauthority start false hstart
        refine ⟨false,authority,_,?_,?_,hle⟩
        · simp only [parseAuthority, findAuthority, if_neg ((hfind _).not.mpr hslashes),
            if_pos ((hfind _).not.mpr hslash), if_neg hnone, if_true]
          exact hread
        · rw [hnext, if_neg (by rw [← hscheme]; exact not_or.mpr ⟨hslash,hnone⟩), hrest]

/-- The parts that are cut out of the text from start on. -/
def Cut (text : Str) (t : URI) : Prop :=
  '?' ∉ text ∧ t.mPath = text ∧ t.mQueryString = [] ∧ t.mFragment = [] ∨
    '?' ∈ text ∧ t.mPath = text.before '?' ∧ t.mQueryString = (text.behind '?').before '#' ∧
      t.mFragment = (text.behind '?').behind '#'

theorem parsePath_cut {s t : URI} {start : ℕ} (hstart : start ≤ s.mFullString.length)
    (hpath : s.mPath = []) (hquery : s.mQueryString = []) (hfragment : s.mFragment = [])
    (h : s.parsePath start = .ok (true,t)) : Cut (s.mFullString.drop start) t := by
  unfold parsePath at h
  by_cases hlt : start < s.mFullString.length
  swap
  · rw [if_neg hlt] at h
    obtain rfl := (Prod.mk.inj (Except.ok.inj h)).2
    rw [List.drop_eq_nil_of_le (by omega)]
    exact .inl ⟨by simp,hpath,hquery,hfragment⟩
  rw [if_pos hlt] at h
  -- without a '?' the whole rest is the path, '#' and all
  cases hfind : s.mFullString.find ['?'] start with
  | none =>
    simp only [hfind, Option.map_none, Str.substr_none hstart, ok_bind] at h
    obtain rfl := (Prod.mk.inj (Except.ok.inj h)).2
    exact .inl ⟨Str.not_mem_of_find_eq_none hfind,rfl,hquery,hfragment⟩
  | some off =>
    right
    obtain ⟨hle,hoff,path,hdrop,hlen,hfree⟩ := Str.find_eq_some hfind
    have hpathText : (s.mFullString.drop start).take (off-start) = path := by
      rw [hdrop, ← hlen, List.take_left]
    simp only [hfind, Option.map_some, Str.substr_some hstart, ok_bind, hpathText] at h
    rw [hdrop, Str.before_append hfree, Str.behind_append hfree]
    refine ⟨by simp,?_⟩
    -- behind the '?' the query goes up to a '#'
    cases hhash : s.mFullString.find ['#'] (off+1) with
    | none =>
      have hnot := Str.not_mem_of_find_eq_none hhash
      obtain ⟨res,params,hparse⟩ := parseQuery_ok
        { s with mPath := path, mQueryString := s.mFullString.drop (off+1) }
      simp only [hhash, Option.map_none, Str.substr_none (show off+1 ≤ _ from hoff), ok_bind,
        hparse] at h
      rw [Str.before_of_not_mem hnot, Str.behind_of_not_mem hnot]
      split_ifs at h
      · cases (Prod.mk.inj (Except.ok.inj h)).1
      · obtain rfl := (Prod.mk.inj (Except.ok.inj h)).2
        exact ⟨rfl,rfl,hfragment⟩
    | some hash =>
      obtain ⟨hle',hhashLt,query,hdrop',hlen',hfree'⟩ := Str.find_eq_some hhash
      have hqueryText : (s.mFullString.drop (off+1)).take (hash-(off+1)) = query := by
        rw [hdrop', ← hlen', List.take_left]
      obtain ⟨res,params,hparse⟩ := parseQuery_ok { s with mPath := path, mQueryString := query }
      simp only [hhash, Option.map_some, Str.substr_some (show off+1 ≤ _ from hoff), ok_bind,
        hqueryText, hparse, Str.substr_none (show hash+1 ≤ _ from hhashLt)] at h
      rw [hdrop', Str.before_append hfree', Str.behind_append hfree']
      split_ifs at h
      · cases (Prod.mk.inj (Except.ok.inj h)).1
      · obtain rfl := (Prod.mk.inj (Except.ok.inj h)).2
        exact ⟨rfl,rfl,rfl⟩

theorem setString_cut {s t : URI} {uri : Str} (h : s.setString uri = .ok (true,t)) :
    Cut (pathText uri) t := by
  let s₀ : URI := { init with mFullString := uri }
  obtain ⟨start,hstart,hscheme,hrest⟩ := parseScheme_text (s := s₀) rfl
  obtain ⟨relative,authority,next,hauth,hnext,hle⟩ :=
    parseAuthority_text { s₀ with mScheme := schemeText uri } hstart rfl hrest
  rw [setString_eq, hscheme, ok_bind] at h
  simp only [s₀] at h
  rw [hauth, ok_bind] at h
  cases next with
  | none =>
    obtain rfl := (Prod.mk.inj (Except.ok.inj h)).2
    have hnil : pathText uri = [] := hnext.symm
    rw [hnil]
    exact .inl ⟨by simp,rfl,rfl,rfl⟩
  | some n =>
    have hcut := parsePath_cut (s := { s₀ with
      mScheme := schemeText uri, mRelative := relative, mAuthority := authority }) (hle n rfl) rfl rfl rfl h
    have htext : uri.drop n = pathText uri := hnext
    rwa [← htext]

/-- The parts of an accepted string are separated exactly if no '#' stands in front of the first
'?' of the text they are cut from, or in all of it where there is no '?'. -/
theorem setString_separated_iff {s t : URI} {uri : Str} (h : s.setString uri = .ok (true,t)) :
    Separated uri t ↔ '#' ∉ (pathText uri).before '?' := by
  rcases setString_cut h with ⟨hnot,hpath,hquery,hfragment⟩ | ⟨hmem,hpath,hquery,hfragment⟩
  · rw [Str.before_of_not_mem hnot]
    constructor
    · intro hsep
      exact hpath ▸ hsep.path_hash
    · intro hhash
      refine ⟨hpath ▸ hnot,hpath ▸ hhash,by rw [hquery]; simp,?_⟩
      rw [hfragment, Str.behind_of_not_mem hhash]
  · constructor
    · intro hsep
      exact hpath ▸ hsep.path_hash
    · intro hhash
      obtain ⟨a,b,hab,ha⟩ := List.eq_append_cons_of_mem hmem
      rw [hab, Str.before_append ha] at hpath hhash
      rw [hab, Str.behind_append ha] at hquery hfragment
      refine ⟨hpath ▸ ha,hpath ▸ hhash,hquery ▸ Str.not_mem_before '#' b,?_⟩
      rw [hfragment, hab, Str.behind_skip hhash, ← List.singleton_append, Str.behind_skip (by decide)]

/-- In "s://a/p?k=v#f?g#h" the fragment is "f?g#h". -/
theorem setString_separated_fragment : Separated
      ['s',':','/','/','a','/','p','?','k','=','v','#','f','?','g','#','h']
      { init with
        mFullString := ['s',':','/','/','a','/','p','?','k','=','v','#','f','?','g','#','h']
        mQueryString := ['k','=','v'], mScheme := ['s'], mAuthority := ['a'], mPath := ['/','p']
        mFragment := ['f','?','g','#','h'], mQueryParams := [⟨['k'],['v']⟩] } ↔
    '#' ∉ (pathText ['s',':','/','/','a','/','p','?','k','=','v','#','f','?','g','#','h']).before '?' :=
  setString_separated_iff (s := init) rfl

/-- In "/p#f" there is no '?', and the path keeps the fragment. -/
theorem setString_keeps_hash : ¬∀ (s t : URI) (uri : Str), s.setString uri = .ok (true,t) →
    Separated uri t := by
  intro h
  have hparse : init.setString ['/','p','#','f'] =
    .ok (true,{ init with mFullString := ['/','p','#','f'], mPath := ['/','p','#','f'] }) := rfl
  exact absurd (h _ _ _ hparse).path_hash (by decide)

end URI

end JhCommon
