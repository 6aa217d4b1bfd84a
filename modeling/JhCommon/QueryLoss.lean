import JhCommon.URIQuery

/-! What `parseQuery` accepts, and what of it the parameters keep: a last part without an '=' is
left out. -/
namespace JhCommon

/-- Behind each '&' there is an '='. -/
def AmpCovered (s : Str) : Prop := ∀ b, '&' :: b <:+ s → '=' ∈ b

/-- No '&' stands behind the last '=', if there is one. -/
def EndsInParam (query : Str) : Prop := '=' ∈ query → AmpCovered query

theorem ampCovered_cons {c : Char} {s : Str} (hc : c = '&' → '=' ∈ s) (hs : AmpCovered s) :
    AmpCovered (c :: s) := by
  intro b hb
  rcases List.suffix_cons_iff.mp hb with heq | hb
  · obtain ⟨hamp,rfl⟩ := List.cons.inj heq
    exact hc hamp.symm
  · exact hs b hb

theorem ampCovered_append {k s : Str} (hk : '&' ∈ k → '=' ∈ s) (hs : AmpCovered s) :
    AmpCovered (k ++ s) := by
  induction k with
  | nil => exact hs
  | cons c k ih =>
    have hrest := ih (fun hmem => hk (List.mem_cons_of_mem c hmem))
    apply ampCovered_cons _ hrest
    rintro rfl
    exact List.mem_append_right k (hk List.mem_cons_self)

theorem joinParams_cons_of_ne_nil (p : QueryParam) {rest : List QueryParam} (hrest : rest ≠ []) :
    joinParams (p :: rest) = p.mKey ++ '=' :: (p.mParam ++ '&' :: joinParams rest) := by
  cases rest with
  | nil => exact absurd rfl hrest
  | cons p' rest => rfl

theorem eq_mem_joinParams {params : List QueryParam} (h : params ≠ []) : '=' ∈ joinParams params := by
  cases params with
  | nil => exact absurd rfl h
  | cons p rest =>
    obtain ⟨tail,htail⟩ := joinParams_cons p rest
    rw [htail]
    simp

/-- In the text of parameters an '&' stands in a key or in front of one. -/
theorem ampCovered_joinParams {params : List QueryParam} (h : ∀ p ∈ params, '&' ∉ p.mParam) :
    AmpCovered (joinParams params) := by
  induction params with
  | nil =>
    intro b hb
    cases List.suffix_nil.mp hb
  | cons p rest ih =>
    have hp := h p List.mem_cons_self
    have hcovered := ih (fun r hr => h r (List.mem_cons_of_mem p hr))
    have hvalue : AmpCovered (p.mParam ++ if rest = [] then [] else '&' :: joinParams rest) := by
      apply ampCovered_append (fun hmem => absurd hmem hp)
      split_ifs with hrest
      · intro b hb
        cases List.suffix_nil.mp hb
      · exact ampCovered_cons (fun _ => eq_mem_joinParams hrest) hcovered
    have hjoin : joinParams (p :: rest) =
        p.mKey ++ '=' :: (p.mParam ++ if rest = [] then [] else '&' :: joinParams rest) := by
      split_ifs with hrest
      · rw [hrest, joinParams, List.append_nil]
      · exact joinParams_cons_of_ne_nil p hrest
    rw [hjoin]
    exact ampCovered_append (fun _ => List.mem_cons_self) (ampCovered_cons (by simp) hvalue)

namespace URI

/-- What the loop makes of the text from start on: it refuses a text without '=', and otherwise
reads parameters until no '=' is left, without what follows their last '&'. -/
theorem parseParams_spec (query : Str) (fuel start : ℕ) (params : List QueryParam)
    (hstart : start ≤ query.length) (hfuel : query.length < fuel+start) :
    (parseParams query fuel start params = .ok (false,params) ∧ '=' ∉ query.drop start) ∨
    ∃ new lost, parseParams query fuel start params = .ok (true,params ++ new) ∧ new ≠ [] ∧
      query.drop start = joinParams new ++ lost ∧ (∀ p ∈ new, '&' ∉ p.mParam) ∧
      (lost = [] ∨ ∃ b, lost = '&' :: b ∧ '=' ∉ b) := by
  induction fuel generalizing start params with
  | zero => omega
  | succ fuel ih =>
    simp only [parseParams]
    -- without a '=' the loop ends here, and what is left is lost
    cases heq : query.find ['='] start with
    | none => exact .inl ⟨rfl,Str.not_mem_of_find_eq_none heq⟩
    | some off =>
      right
      obtain ⟨hle,hlt,key,hkey,hkeyLen,-⟩ := Str.find_eq_some heq
      have htakeKey : (query.drop start).take (off-start) = key := by
        rw [hkey, ← hkeyLen, List.take_left]
      simp only [Str.substr_some hstart, ok_bind, htakeKey]
      -- the value goes up to the next '&', or takes all that is left
      cases hamp : query.find ['&'] (off+1) with
      | none =>
        refine ⟨[⟨key,query.drop (off+1)⟩],[],?_,by simp,?_,?_,.inl rfl⟩
        · simp only [Str.substr_none (show off+1 ≤ query.length from hlt), ok_bind]
        · rw [List.append_nil]
          exact hkey
        · simpa using Str.not_mem_of_find_eq_none hamp
      | some amp =>
        obtain ⟨hle',hlt',value,hvalue,hvalueLen,hfree⟩ := Str.find_eq_some hamp
        have htakeValue : (query.drop (off+1)).take (amp-(off+1)) = value := by
          rw [hvalue, ← hvalueLen, List.take_left]
        simp only [Str.substr_some (show off+1 ≤ query.length from hlt), ok_bind, htakeValue]
        -- the loop goes on only where another '=' comes
        split_ifs with hmore
        · refine ⟨[⟨key,value⟩],'&' :: query.drop (amp+1),rfl,by simp,?_,by simpa using hfree,?_⟩
          · rw [hkey, hvalue]
            simp [joinParams]
          · exact .inr ⟨_,rfl,Str.not_mem_of_find_eq_none hmore⟩
        · rcases ih (amp+1) (params ++ [⟨key,value⟩]) hlt' (by omega) with
            ⟨-,hnone⟩ | ⟨new,lost,hloop,hne,hdrop,hvalues,hlost⟩
          · exact absurd (Str.find_eq_none hnone) hmore
          · refine ⟨⟨key,value⟩ :: new,lost,?_,by simp,?_,?_,hlost⟩
            · rw [hloop, List.append_assoc]
              rfl
            · rw [hkey, hvalue, hdrop, joinParams_cons_of_ne_nil _ hne]
              simp
            · exact List.forall_mem_cons.mpr ⟨hfree,hvalues⟩

/-- The text that `buildQuery` makes of the parameters. -/
theorem buildQuery_params (s : URI) :
    { s with mModifiedQuery := true }.buildQuery.mQueryString = joinParams s.mQueryParams := by
  simp [buildQuery, appendParams_zero]

/-- Parameters that are read from a query give it back exactly if none of it was left out, which
takes an '&' behind the last '='. -/
theorem parseQuery_buildQuery_iff (s : URI) (hs : s.mQueryParams = []) :
    (∃ res, ∃ t : URI, s.parseQuery = .ok (res,t) ∧ (res = true →
      { t with mModifiedQuery := true }.buildQuery.mQueryString = s.mQueryString)) ↔
    EndsInParam s.mQueryString := by
  simp only [buildQuery_params]
  unfold parseQuery
  by_cases hnil : s.mQueryString = []
  · simp only [hnil, if_true]
    apply iff_of_true ⟨true,_,rfl,fun _ => rfl⟩
    intro heq
    cases heq
  rw [if_neg hnil]
  dsimp only
  rw [hs]
  rcases parseParams_spec s.mQueryString (s.mQueryString.length+1) 0 [] (Nat.zero_le _) (by omega) with
    ⟨hloop,hnone⟩ | ⟨new,lost,hloop,hne,hdrop,hvalues,hlost⟩
  · rw [hloop, ok_bind]
    rw [List.drop_zero] at hnone
    exact iff_of_true ⟨false,_,rfl,by simp⟩ (fun heq => absurd heq hnone)
  · rw [hloop, ok_bind]
    rw [List.drop_zero] at hdrop
    constructor
    · rintro ⟨res,t,hres,hjoin⟩
      obtain ⟨rfl,rfl⟩ := Prod.mk.inj (Except.ok.inj hres)
      rw [← hjoin rfl]
      exact fun _ => ampCovered_joinParams hvalues
    · -- what is lost stands behind the last '&', and has no '='
      intro hends
      refine ⟨true,_,rfl,fun _ => ?_⟩
      have heq : '=' ∈ s.mQueryString := hdrop ▸ List.mem_append_left lost (eq_mem_joinParams hne)
      rcases hlost with rfl | ⟨b,rfl,hb⟩
      · rw [hdrop, List.append_nil]
        rfl
      · have hsuffix : '&' :: b <:+ s.mQueryString := hdrop ▸ List.suffix_append _ _
        exact absurd (hends heq b hsuffix) hb

theorem parseQuery_buildQuery_iff_two :
    (∃ res, ∃ t : URI, { init with mQueryString := ['a','=','b','&','=','&'] }.parseQuery =
      .ok (res,t) ∧ (res = true → { t with mModifiedQuery := true }.buildQuery.mQueryString =
        ['a','=','b','&','=','&'])) ↔ EndsInParam ['a','=','b','&','=','&'] :=
  parseQuery_buildQuery_iff { init with mQueryString := ['a','=','b','&','=','&'] } rfl

/-- Of "a=b&c" the parameter a is kept. -/
theorem parseQuery_loses : ¬∀ s : URI, s.mQueryParams = [] → ∃ res, ∃ t : URI,
    s.parseQuery = .ok (res,t) ∧ (res = true →
      { t with mModifiedQuery := true }.buildQuery.mQueryString = s.mQueryString) := by
  intro h
  obtain ⟨res,t,hparse,hjoin⟩ := h { init with mQueryString := ['a','=','b','&','c'] } rfl
  have hread : { init with mQueryString := ['a','=','b','&','c'] }.parseQuery =
    .ok (true,{ init with mQueryString := ['a','=','b','&','c'], mQueryParams := [⟨['a'],['b']⟩] }) := rfl
  obtain ⟨rfl,rfl⟩ := Prod.mk.inj (Except.ok.inj (hread.symm.trans hparse))
  exact absurd (hjoin rfl) (by decide)

end URI

end JhCommon
