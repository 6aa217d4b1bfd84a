import JhCommon.URI
import JhCommon.Transition

/-! The query of a URI: the text of a parameter list and the list of a text, and the calls in
which the two copies of the query come apart. -/
namespace JhCommon

/-- The text of a parameter list. -/
def joinParams : List QueryParam → Str
  | [] => []
  | [p] => p.mKey ++ '=' :: p.mParam
  | p :: rest => p.mKey ++ '=' :: (p.mParam ++ '&' :: joinParams rest)

/-- A parameter that can be read back from the text. -/
structure QueryParam.Free (p : QueryParam) : Prop where
  key_eq : '=' ∉ p.mKey
  key_amp : '&' ∉ p.mKey
  key_hash : '#' ∉ p.mKey
  param_amp : '&' ∉ p.mParam
  param_hash : '#' ∉ p.mParam

theorem joinParams_eq_nil {params : List QueryParam} : joinParams params = [] ↔ params = [] := by
  cases params with
  | nil => simp [joinParams]
  | cons p rest => cases rest <;> simp [joinParams]

theorem joinParams_cons (p : QueryParam) (rest : List QueryParam) :
    ∃ tail, joinParams (p :: rest) = p.mKey ++ '=' :: tail := by
  cases rest with
  | nil => exact ⟨_,rfl⟩
  | cons p' rest => exact ⟨_,rfl⟩

theorem length_le_joinParams (params : List QueryParam) :
    params.length ≤ (joinParams params).length := by
  induction params with
  | nil => exact Nat.zero_le _
  | cons p rest ih =>
    cases rest with
    | nil =>
      simp only [joinParams, List.length_append, List.length_cons, List.length_nil]
      omega
    | cons p' rest =>
      simp only [joinParams, List.length_append, List.length_cons] at ih ⊢
      omega

/-- The first value of a key, or nothing. -/
def lookupParam (params : List QueryParam) (key : Str) : Str :=
  ((params.find? (·.mKey = key)).map (·.mParam)).getD []

namespace URI

theorem appendParams_succ (str : Str) (i : ℕ) (params : List QueryParam) :
    appendParams str (i+1) params =
      str ++ if params = [] then [] else '&' :: joinParams params := by
  induction params generalizing str i with
  | nil => simp [appendParams]
  | cons p rest ih =>
    rw [appendParams, ih]
    cases rest <;> simp [joinParams]

theorem appendParams_zero (params : List QueryParam) :
    appendParams [] 0 params = joinParams params := by
  cases params with
  | nil => rfl
  | cons p rest =>
    rw [appendParams, appendParams_succ]
    cases rest <;> simp [joinParams]

/-- The loop reads the parameters whose text stands from start on. The induction is on the
parameters behind the first one. -/
theorem parseParams_join (query : Str) {p : QueryParam} {rest : List QueryParam}
    (params : List QueryParam) (fuel start : ℕ) (hfree : ∀ r ∈ p :: rest, r.Free)
    (hstart : start ≤ query.length)
    (hfuel : rest.length < fuel) (hq : query.drop start = joinParams (p :: rest)) :
    parseParams query fuel start params = .ok (true,params ++ p :: rest) := by
  induction rest generalizing p params fuel start with
  | nil =>
    obtain ⟨fuel,rfl⟩ : ∃ n, fuel = n+1 := ⟨fuel-1,by omega⟩
    have hp := hfree p List.mem_cons_self
    rw [joinParams] at hq
    have hval := Str.drop_add_of_drop (a := p.mKey ++ ['=']) (b := p.mParam) (by simpa using hq)
    have hle := Str.le_length_of_drop (a := p.mKey ++ ['=']) (b := p.mParam) (by simpa using hq) hstart
    simp only [List.length_append, List.length_singleton, ← Nat.add_assoc] at hval hle
    simp only [parseParams, Str.find_append hstart hq hp.key_eq]
    rw [Str.substr_some hstart, ok_bind, Str.find_eq_none (by rw [hval]; exact hp.param_amp)]
    simp only [Str.substr_none hle, ok_bind, hval, hq, Nat.add_sub_cancel_left, List.take_left]
  | cons p' rest ih =>
    obtain ⟨fuel,rfl⟩ : ∃ n, fuel = n+1 := ⟨fuel-1,by omega⟩
    have hp := hfree p List.mem_cons_self
    rw [joinParams] at hq
    · have hval := Str.drop_add_of_drop (a := p.mKey ++ ['=']) (by simpa using hq)
      have hle := Str.le_length_of_drop (a := p.mKey ++ ['=']) (by simpa using hq) hstart
      simp only [List.length_append, List.length_singleton, ← Nat.add_assoc] at hval hle
      have hnext := Str.drop_add_of_drop (a := p.mParam ++ ['&']) (by simpa using hval)
      have hle' := Str.le_length_of_drop (a := p.mParam ++ ['&']) (by simpa using hval) hle
      simp only [List.length_append, List.length_singleton, ← Nat.add_assoc] at hnext hle'
      -- another '=' comes, so the loop goes on
      have hmore : query.find ['='] (start+p.mKey.length+1+p.mParam.length+1) ≠ none := by
        obtain ⟨tail,htail⟩ := joinParams_cons p' rest
        rw [Str.find_append hle' (hnext.trans htail)
          (hfree p' (List.mem_cons_of_mem p List.mem_cons_self)).key_eq]
        simp
      simp only [parseParams, Str.find_append hstart hq hp.key_eq]
      rw [Str.substr_some hstart, ok_bind]
      simp only [Str.find_append hle hval hp.param_amp]
      rw [Str.substr_some hle, ok_bind, if_neg hmore,
        ih _ _ _ (fun r hr => hfree r (List.mem_cons_of_mem p hr)) hle' (by simpa using hfuel) hnext]
      simp [hq, hval]
    · simp

/-- A text of n characters has at most n+1 parameters: the loop always ends by itself. -/
theorem parseParams_ok (query : Str) (fuel start : ℕ) (params : List QueryParam)
    (hstart : start ≤ query.length) (hfuel : query.length < fuel+start) :
    ∃ res, parseParams query fuel start params = .ok res := by
  induction fuel generalizing start params with
  | zero => omega
  | succ fuel ih =>
    simp only [parseParams]
    cases heq : query.find ['='] start with
    | none => exact ⟨_,rfl⟩
    | some off =>
      have hoff := Str.lt_of_find heq
      simp only [Str.substr_some hstart, ok_bind]
      cases hamp : query.find ['&'] (off+1) with
      | none =>
        simp only [Str.substr_none (show off+1 ≤ query.length by omega), ok_bind]
        exact ⟨_,rfl⟩
      | some amp =>
        have hamp' := Str.lt_of_find hamp
        simp only [Str.substr_some (show off+1 ≤ query.length by omega), ok_bind]
        split_ifs
        · exact ⟨_,rfl⟩
        · exact ih _ _ (by omega) (by omega)

/-- Whatever the query string is, `parseQuery` returns. -/
theorem parseQuery_ok (s : URI) : ∃ res params, s.parseQuery =
    .ok (res,{ s with mModifiedQuery := false, mQueryParams := params }) := by
  unfold parseQuery
  by_cases hq : s.mQueryString = []
  · exact ⟨true,[],if_pos hq⟩
  · obtain ⟨⟨res,params⟩,hparams⟩ := parseParams_ok s.mQueryString
      (s.mQueryString.length+1) 0 s.mQueryParams (Nat.zero_le _) (by omega)
    exact ⟨res,params,by simp only [if_neg hq, hparams, ok_bind]⟩

/-- `parseQuery` adds the parameters of the text to the ones there are; only an empty text takes
those away. -/
theorem parseQuery_join {s : URI} {params : List QueryParam} (hfree : ∀ p ∈ params, p.Free)
    (hq : s.mQueryString = joinParams params) :
    s.parseQuery = .ok (true,{ s with
      mModifiedQuery := false
      mQueryParams := if params = [] then [] else s.mQueryParams ++ params }) := by
  unfold parseQuery
  cases params with
  | nil => simp only [show s.mQueryString = [] from hq, ↓reduceIte]
  | cons p rest =>
    have hne : s.mQueryString ≠ [] := by rw [hq, ne_eq, joinParams_eq_nil]; simp
    have hlen := length_le_joinParams (p :: rest)
    rw [← hq, List.length_cons] at hlen
    have hparams := parseParams_join s.mQueryString s.mQueryParams
      (s.mQueryString.length+1) 0 hfree (Nat.zero_le _) (by omega) hq
    simp only [if_neg hne, hparams, ok_bind, reduceCtorEq, if_false]

theorem joinParams_injective {a b : List QueryParam} (ha : ∀ p ∈ a, p.Free)
    (hb : ∀ p ∈ b, p.Free) (h : joinParams a = joinParams b) : a = b := by
  have hpa := parseQuery_join (s := { init with mQueryString := joinParams a }) ha rfl
  have hpb := parseQuery_join (s := { init with mQueryString := joinParams a }) hb h
  have heq := hpa.symm.trans hpb
  simp only [init, List.nil_append, Except.ok.injEq, Prod.mk.injEq, URI.mk.injEq, true_and] at heq
  cases a <;> cases b <;> simp_all

end URI

end JhCommon
