import JhCommon.HeaderCache
import JhCommon.URIParse

/-! The request line that is built from a method and a URI, and what is parsed from it. The parser
reads the path and the query as a whole URI, in which a ':' ends a scheme and a leading "//" starts an
authority. -/
namespace JhCommon
open CircularBuffer

namespace URI
variable {s t : URI} {start : ℕ} {res : Bool} {w path query : Str}

/-- The path and the query as they stand in a request line. -/
def targetText (path query : Str) : Str := path ++ if query ≠ [] then '?' :: query else []

theorem target_eq (s : URI) : s.target = asciiBytes (targetText s.getPath s.getQuery.1) := by
  unfold target targetText asciiBytes
  split
  · rw [List.map_append, List.map_cons]
    rfl
  · rw [List.map_append, List.map_nil]

theorem length_targetText : (targetText path query).length =
    path.length + if query ≠ [] then query.length+1 else 0 := by
  unfold targetText
  split <;> simp

theorem parseQuery_mQueryString (s : URI) : ∃ r t, s.parseQuery = .ok (r,t) ∧
    t.mQueryString = s.mQueryString ∧ t.mPath = s.mPath ∧ t.mModifiedQuery = false := by
  obtain ⟨res,params,hquery⟩ := parseQuery_ok s
  exact ⟨res,_,hquery,rfl,rfl,rfl⟩

/-- The path and the query that are parsed lie behind start, or there is no path. -/
theorem parsePath_length (hquery : s.mQueryString = []) (hpath : s.mPath = [])
    (h : s.parsePath start = .ok (res,t)) :
    t.mPath = [] ∨ (targetText t.mPath t.mQueryString).length+start ≤ s.mFullString.length := by
  unfold parsePath at h
  by_cases hstart : start < s.mFullString.length
  · rw [if_pos hstart] at h
    cases hoff : s.mFullString.find ['?'] start with
    | none =>
      simp only [hoff, Option.map_none, Str.substr_none hstart.le, ok_bind, Except.ok.injEq,
        Prod.mk.injEq] at h
      obtain ⟨-,rfl⟩ := h
      right
      rw [length_targetText, if_neg (not_not.mpr hquery), List.length_drop]
      omega
    | some off =>
      have hlt := Str.lt_of_find hoff
      obtain ⟨q,hq⟩ := Str.substr_ok (s := s.mFullString) (show off+1 ≤ _ from hlt.2)
        ((s.mFullString.find ['#'] (off+1)).map (·-(off+1)))
      obtain ⟨r,t',hparse,hqt,hpt,-⟩ := parseQuery_mQueryString
        { s with mPath := (s.mFullString.drop start).take (off-start), mQueryString := q }
      have hqlength := Str.length_substr hq
      simp only [hoff, Option.map_some, Str.substr_some hstart.le, ok_bind, hq, hparse] at h
      -- a fragment changes neither
      have hsame : t.mPath = t'.mPath ∧ t.mQueryString = t'.mQueryString := by
        cases r with
        | false =>
          simp only [if_true, Except.ok.injEq, Prod.mk.injEq] at h
          rw [← h.2]
          exact ⟨rfl,rfl⟩
        | true =>
          simp only [Bool.true_eq_false, if_false] at h
          cases hhash : s.mFullString.find ['#'] (off+1) with
          | none =>
            simp only [hhash, Except.ok.injEq, Prod.mk.injEq] at h
            rw [← h.2]
            exact ⟨rfl,rfl⟩
          | some hash =>
            simp only [hhash] at h
            obtain ⟨fragment,-,h⟩ := bind_eq_ok.mp h
            obtain ⟨-,rfl⟩ := Prod.mk.inj (Except.ok.inj h)
            exact ⟨rfl,rfl⟩
      right
      rw [length_targetText, hsame.1, hsame.2, hqt, hpt]
      have hplength : ((s.mFullString.drop start).take (off-start)).length ≤ off-start :=
        List.length_take_le _ _
      dsimp only
      split <;> omega
  · rw [if_neg hstart, Except.ok.injEq, Prod.mk.injEq] at h
    exact .inl (by rw [← h.2, hpath])

/-- The text has a scheme or an authority as the parser sees it. -/
def Heads (w : Str) : Prop := ':' ∈ w ∨ ['/','/'] <+: w

/-- Where the parser goes on, behind "//" if that is there. -/
theorem findAuthority_start (s : URI) (start : ℕ) : start ≤ (s.findAuthority start).2.1 ∧
    (start ≤ s.mFullString.length → ['/','/'] <+: s.mFullString.drop start →
      s.findAuthority start = (true,start+2,false)) := by
  constructor
  · unfold findAuthority
    split_ifs
    · exact Nat.le_add_right start 2
    · exact le_rfl
    · exact le_rfl
    · exact le_rfl
  · intro hstart hslashes
    exact if_pos (Str.find_prefix hstart hslashes)

/-- Where the path starts: behind a scheme and an authority. -/
theorem parseAuthority_next {next : ℕ} (h : s.parseAuthority start = .ok (t,some next)) :
    start ≤ next ∧ (start ≤ s.mFullString.length → ['/','/'] <+: s.mFullString.drop start →
      start < next) := by
  obtain ⟨hstart,hslashes⟩ := findAuthority_start s start
  unfold parseAuthority at h
  generalize s.findAuthority start = found at h hstart hslashes
  obtain ⟨hasAuth,start',relative⟩ := found
  cases hasAuth with
  | true =>
    obtain ⟨authority,-,h⟩ := bind_eq_ok.mp h
    have hlt := Str.lt_of_find (Prod.mk.inj (Except.ok.inj h)).2
    refine ⟨hstart.trans hlt.1,fun hle hprefix => ?_⟩
    have hfound := hslashes hle hprefix
    simp only [Prod.mk.injEq] at hfound
    omega
  | false =>
    obtain rfl := Option.some.inj (Prod.mk.inj (Except.ok.inj h)).2
    refine ⟨hstart,fun hle hprefix => ?_⟩
    have hfound := hslashes hle hprefix
    simp only [Prod.mk.injEq, Bool.false_eq_true, false_and] at hfound

/-- A path and a query that are parsed are shorter than the text if that has a scheme or an
authority. -/
theorem setString_length (h : s.setString w = .ok (res,t)) (hpath : t.mPath ≠ []) :
    (targetText t.mPath t.mQueryString).length ≤ w.length ∧
      (Heads w → (targetText t.mPath t.mQueryString).length < w.length) := by
  rw [setString_eq] at h
  obtain ⟨⟨s₁,start⟩,hscheme,h⟩ := bind_eq_ok.mp h
  obtain ⟨⟨s₂,next⟩,hauth,h⟩ := bind_eq_ok.mp h
  -- a ':' moves the start, and leaves the text as it is
  have hstart : s₁ = { init with mFullString := w, mScheme := s₁.mScheme } ∧ start ≤ w.length ∧
      (':' ∈ w → 0 < start) := by
    have hzero := Str.find_zero_eq_none (s := w) (c := ':')
    unfold parseScheme at hscheme
    dsimp only at hscheme
    cases hoff : w.find [':'] 0 with
    | none =>
      simp only [hoff, Except.ok.injEq, Prod.mk.injEq] at hscheme
      obtain ⟨rfl,rfl⟩ := hscheme
      exact ⟨rfl,Nat.zero_le _,fun hcolon => absurd hcolon (hzero.mp hoff)⟩
    | some off =>
      have hlt := Str.lt_of_find hoff
      simp only [hoff, Str.substr_some (Nat.zero_le _), ok_bind, Except.ok.injEq, Prod.mk.injEq] at hscheme
      obtain ⟨rfl,rfl⟩ := hscheme
      exact ⟨rfl,hlt.2,fun _ => Nat.succ_pos off⟩
  obtain ⟨hs₁,hle,hcolon⟩ := hstart
  have hfull : s₁.mFullString = w := by rw [hs₁]
  have hwithin : start ≤ s₁.mFullString.length := by rwa [hfull]
  obtain ⟨relative,authority,next',hok⟩ := parseAuthority_ok s₁ hwithin
  obtain ⟨rfl,rfl⟩ := Prod.mk.inj (Except.ok.inj (hok.symm.trans hauth))
  cases next' with
  | none =>
    obtain ⟨-,rfl⟩ := Prod.mk.inj (Except.ok.inj h)
    exact absurd (by rw [hs₁]; rfl) hpath
  | some next =>
    obtain ⟨hnext,hslashes⟩ := parseAuthority_next hauth
    rw [hfull] at hslashes
    have hlength := (parsePath_length (by rw [hs₁]; rfl) (by rw [hs₁]; rfl) h).resolve_left hpath
    dsimp only at hlength
    rw [hfull] at hlength
    refine ⟨by omega,fun hheads => ?_⟩
    rcases Nat.eq_zero_or_pos start with hzero | hpos
    · rw [hzero, List.drop_zero] at hslashes
      rcases hheads with hc | hs
      · have := hcolon hc
        omega
      · have := hslashes (Nat.zero_le _) hs
        omega
    · omega

/-- A text without a scheme and an authority is a path and a query. -/
theorem setString_target (s : URI) (hslash : path.head? = some '/') (hmark : '?' ∉ path)
    (hhash : '#' ∉ query) (hheads : ¬Heads (targetText path query)) :
    ∃ r t, s.setString (targetText path query) = .ok (r,t) ∧ t.mPath = path ∧
      t.getQuery.1 = query := by
  obtain ⟨hcolon,hslashes⟩ := not_or.mp hheads
  obtain ⟨path',rfl⟩ : ∃ path', path = '/' :: path' := by
    cases path with
    | nil => cases hslash
    | cons c path' => exact ⟨path',by rw [Option.some.inj hslash]⟩
  obtain ⟨w,hw⟩ : ∃ w, w = targetText ('/' :: path') query := ⟨_,rfl⟩
  rw [← hw] at hcolon hslashes ⊢
  have hdrop : w.drop 0 = '/' :: path' ++ if query ≠ [] then '?' :: query else [] := hw
  let s₀ : URI := { init with mFullString := w }
  have hscheme : s₀.parseScheme = .ok (s₀,0) := by
    unfold parseScheme
    simp only [s₀, Str.find_zero_eq_none.mpr hcolon]
  -- the text begins with one '/', which is where the path is
  have hauth : s₀.parseAuthority 0 = .ok (s₀,some 0) := by
    have hno : w.find ['/','/'] 0 ≠ some 0 := by
      intro hfind
      have := Str.prefix_of_find hfind
      rw [List.drop_zero] at this
      exact hslashes this
    have hyes : w.find ['/'] 0 = some 0 :=
      Str.find_prefix (Nat.zero_le _) (by rw [hdrop]; exact List.prefix_append ['/'] _)
    unfold parseAuthority findAuthority
    simp only [s₀, if_neg hno, hyes, ne_eq, not_true_eq_false, if_false, Bool.false_eq_true]
    rfl
  rw [setString_eq, hscheme, ok_bind]
  simp only [hauth, ok_bind]
  unfold parsePath
  have hpos : 0 < w.length := by
    have := congrArg List.length hdrop
    simp only [List.drop_zero, List.length_append, List.length_cons] at this
    omega
  rw [if_pos hpos]
  -- behind the path there is a query, or nothing
  by_cases hquery : query = []
  · rw [if_neg (not_not.mpr hquery), List.append_nil] at hdrop
    have hnone : w.find ['?'] 0 = none := Str.find_eq_none (by rw [hdrop]; exact hmark)
    simp only [s₀, hnone, Option.map_none, Str.substr_none (Nat.zero_le _), ok_bind]
    exact ⟨_,_,rfl,hdrop,hquery.symm⟩
  · rw [if_pos hquery] at hdrop
    have hfind := Str.find_append (Nat.zero_le _) hdrop hmark
    rw [Nat.zero_add] at hfind
    have hdrop' : w.drop 0 = ('/' :: path' ++ ['?']) ++ query := by
      rw [hdrop, List.append_assoc]
      rfl
    have hrest := Str.drop_add_of_drop hdrop'
    have hle := Str.le_length_of_drop hdrop' (Nat.zero_le _)
    rw [List.length_append, List.length_singleton, Nat.zero_add] at hrest hle
    have hnone : w.find ['#'] (('/' :: path').length+1) = none :=
      Str.find_eq_none (by rw [hrest]; exact hhash)
    simp only [s₀, hfind, Option.map_some, Str.substr_some (Nat.zero_le _), ok_bind, hnone,
      Option.map_none, Str.substr_none hle, hrest, Nat.sub_zero, hdrop, List.take_left]
    obtain ⟨r,t,hparse,hq,hp,hm⟩ := parseQuery_mQueryString
      { s₀ with mPath := '/' :: path', mQueryString := query }
    simp only [s₀] at hparse
    rw [hparse, ok_bind]
    have ht : t.getQuery.1 = query := by
      unfold getQuery buildQuery
      rw [if_pos hm]
      exact hq
    cases r with
    | false => exact ⟨_,t,rfl,hp,ht⟩
    | true => exact ⟨_,t,rfl,hp,ht⟩

end URI

section Bytes
variable {cs : Str}

theorem chars_asciiBytes (h : ∀ c ∈ cs, c.toNat < 256) : chars (asciiBytes cs) = cs := by
  rw [chars, asciiBytes, List.map_map]
  refine (List.map_congr_left fun c hc => ?_).trans (List.map_id cs)
  have hval : (UInt8.ofNat c.toNat).toNat = c.toNat := by
    rw [UInt8.toNat_ofNat']
    exact Nat.mod_eq_of_lt (h c hc)
  rw [Function.comp_apply, hval, Char.ofNat_toNat]
  rfl

theorem mem_asciiBytes (h : ∀ c ∈ cs, c.toNat < 256) {b : UInt8} :
    b ∈ asciiBytes cs ↔ ∃ c ∈ cs, c.toNat = b.toNat := by
  rw [asciiBytes, List.mem_map]
  refine exists_congr fun c => and_congr_right fun hc => ?_
  rw [← UInt8.toNat_inj, UInt8.toNat_ofNat', Nat.mod_eq_of_lt (h c hc)]

end Bytes

namespace HttpRequest

section Reading
variable {N : ℕ} {buf : CircularBuffer} {q str rest : List UInt8} {i n max : ℕ} {c : UInt8}

/-- A loop of `parseFirstLine` reads up to the stop byte, unless there are too many bytes. -/
theorem readUntil_eq (h : buf.Holds N q) (hd : q.drop i = str ++ c :: rest) (hstop : c ∉ str)
    {acc : List UInt8} (hacc : acc.length < max) (hn : str.length < n) :
    readUntil buf (c.toNat : ℕ) max n i acc =
      if acc.length+str.length < max then some (i+str.length+1,acc ++ str) else none := by
  induction str generalizing i n acc with
  | nil =>
    obtain ⟨n,rfl⟩ : ∃ k, n = k+1 := ⟨n-1,by simp only [List.length_nil] at hn; omega⟩
    obtain ⟨hbyte,-,-⟩ := h.byteAt_of_drop hd
    have hlen := congrArg List.length hd
    simp only [List.length_drop, List.nil_append, List.length_cons] at hlen
    rw [readUntil]
    simp only [hbyte, getLength, lengthInternal, h.len_eq]
    rw [if_neg (by omega), if_pos trivial, List.length_nil, if_pos (by omega)]
    simp
  | cons b str ih =>
    obtain ⟨n,rfl⟩ : ∃ k, n = k+1 := ⟨n-1,by simp only [List.length_cons] at hn; omega⟩
    obtain ⟨hbyte,hchar,hnext⟩ := h.byteAt_of_drop (by rw [hd, List.cons_append])
    have hlen := congrArg List.length hd
    obtain ⟨hne,hstop⟩ := not_or.mp (List.mem_cons.not.mp hstop)
    simp only [List.length_drop, List.length_append, List.length_cons] at hlen
    rw [readUntil]
    simp only [hbyte, hchar, getLength, lengthInternal, h.len_eq]
    rw [if_neg (by omega), if_neg (toNat_ne (Ne.symm hne)), List.length_append, List.length_singleton]
    -- the byte is stored, and the array is full or not
    by_cases hmax : max ≤ acc.length+1
    · rw [if_pos hmax, if_neg (by rw [List.length_cons]; omega)]
    · rw [if_neg hmax, ih hnext hstop (by rw [List.length_append, List.length_singleton]; omega)
        (by rw [List.length_cons] at hn; omega)]
      have htotal : (acc ++ [b]).length+str.length = acc.length+(b :: str).length := by
        simp only [List.length_append, List.length_cons, List.length_nil]
        omega
      have hbehind : i+1+str.length+1 = i+(b :: str).length+1 := by
        rw [List.length_cons]
        omega
      rw [htotal, hbehind, List.append_assoc, List.singleton_append]

/-- There is no further space to skip in front of another byte. -/
theorem skipSpaces_eq (h : buf.Holds N q) (hd : q.drop i = c :: rest) (hc : c ≠ 32) :
    skipSpaces buf (n+1) i = some i := by
  obtain ⟨hbyte,-,-⟩ := h.byteAt_of_drop hd
  have hne : buf.byteAt i ≠ 32 := by
    rw [hbyte]
    exact toNat_ne hc
  rw [skipSpaces, if_neg hne]

variable {name target proto : List UInt8}

/-- The parser on a line with one space between its parts: everything is read unless the target is
too long. -/
theorem parseFirstLine_eq (t : HttpRequest)
    (h : buf.Holds N (name ++ 32 :: (target ++ 32 :: (proto ++ 13 :: 10 :: rest))))
    (hname : 32 ∉ name) (hmethod : name.length < MAX_METHOD_SIZE) (htarget : 32 ∉ target)
    (hne : target ≠ []) (hproto : 13 ∉ proto) (hprotocol : proto.length < MAX_PROTO_SIZE) :
    t.parseFirstLine buf = if target.length < MAX_URI_SIZE then (do
        let t ← ((t.parseProtocol (cStr proto)).parseMethod (cStr name)).assignURI (cStr target)
        .ok (((name.length+target.length+proto.length+4 : ℕ) : ℤ),t))
      else .ok (-1,t) := by
  obtain ⟨q,hq⟩ : ∃ q, q = name ++ 32 :: (target ++ 32 :: (proto ++ 13 :: 10 :: rest)) := ⟨_,rfl⟩
  rw [← hq] at h
  have hlength := h.len_eq
  have hq₀ : q.drop 0 = name ++ 32 :: (target ++ 32 :: (proto ++ 13 :: 10 :: rest)) := hq
  have hq₁ : q.drop (name.length+1) = target ++ 32 :: (proto ++ 13 :: 10 :: rest) := by
    rw [hq, List.drop_append]
    simp
  have hq₂ : q.drop (name.length+1+target.length+1) = proto ++ 13 :: 10 :: rest := by
    rw [Nat.add_assoc (name.length+1), ← List.drop_drop, hq₁, List.drop_append]
    simp
  have hq₃ : q.drop (name.length+1+target.length+1+proto.length+1) = 10 :: rest := by
    rw [Nat.add_assoc (name.length+1+target.length+1), ← List.drop_drop, hq₂, List.drop_append]
    simp
  have hlong : name.length+target.length+proto.length+4 ≤ q.length := by
    rw [hq]
    simp only [List.length_append, List.length_cons]
    omega
  -- the three reads and the skip, each at the place where the one before it ends
  have hread₁ : readUntil buf 32 MAX_METHOD_SIZE (buf.getLength+1) 0 [] = _ :=
    readUntil_eq (c := 32) h hq₀ hname (by decide) (by
      rw [getLength, lengthInternal, hlength]
      omega)
  have hskip : skipSpaces buf (buf.getLength+1) (name.length+1) = some (name.length+1) := by
    obtain ⟨c,target',rfl⟩ := List.exists_cons_of_ne_nil hne
    refine skipSpaces_eq h hq₁ ?_
    rintro rfl
    exact htarget List.mem_cons_self
  have hread₂ : readUntil buf 32 MAX_URI_SIZE (buf.getLength+1) (name.length+1) [] = _ :=
    readUntil_eq (c := 32) h hq₁ htarget (by decide) (by
      rw [getLength, lengthInternal, hlength]
      omega)
  have hread₃ : readUntil buf 13 MAX_PROTO_SIZE (buf.getLength+1)
      (name.length+1+target.length+1) [] = _ :=
    readUntil_eq (c := 13) h hq₂ hproto (by decide) (by
      rw [getLength, lengthInternal, hlength]
      omega)
  have hlf : buf.byteAt (name.length+1+target.length+1+proto.length+1) = 10 :=
    (h.byteAt_of_drop hq₃).1
  rw [List.length_nil, Nat.zero_add, if_pos hmethod, List.nil_append] at hread₁
  rw [List.length_nil, Nat.zero_add, List.nil_append] at hread₂ hread₃
  rw [if_pos hprotocol] at hread₃
  unfold parseFirstLine
  simp only [hread₁, hskip, hread₂]
  by_cases hshort : target.length < MAX_URI_SIZE
  · simp only [if_pos hshort, hread₃, hlf, if_true]
    have hsum : name.length+1+target.length+1+proto.length+1+1 =
        name.length+target.length+proto.length+4 := by omega
    rw [hsum]
  · simp only [if_neg hshort]

end Reading

/-- The URIs that a request line is meant to carry. The characters of a string are bytes. -/
structure Requestable (uri : URI) : Prop where
  slash : uri.getPath.head? = some '/'
  bytes : ∀ c ∈ uri.getPath ++ uri.getQuery.1, c.toNat < 256
  plain : ∀ c ∈ uri.getPath ++ uri.getQuery.1, c ≠ ' ' ∧ c ≠ '#' ∧ c ≠ '\r' ∧ c ≠ '\n'
  mark : '?' ∉ uri.getPath
  short : uri.getPath.length+uri.getQuery.1.length < MAX_URI_SIZE

/-- The URIs that come back: nothing in them looks like a scheme or an authority, or ends a C string,
and the '?' between path and query fits too. -/
structure Travels (uri : URI) : Prop where
  colon : ':' ∉ uri.getPath ++ uri.getQuery.1
  slashes : ¬['/','/'] <+: uri.getPath
  nul : ∀ c ∈ uri.getPath ++ uri.getQuery.1, c.toNat ≠ 0
  short : uri.target.length < MAX_URI_SIZE

/-- The line of the request s is read as far as it goes, and gives the method, path and query of s. -/
def ReadsBack (t : HttpRequest) (buf : CircularBuffer) (line : List UInt8) (s : HttpRequest) : Prop :=
  ∃ t', t.parseFirstLine buf = .ok ((line.length : ℕ),t') ∧ t'.mMethod = s.mMethod ∧
    t'.mUri.getPath = s.mUri.getPath ∧ t'.mUri.getQuery.1 = s.mUri.getQuery.1

/-- The name of a method is a word, and is parsed as that method. -/
theorem parseMethod_name {type : MethodType} {name : List UInt8}
    (h : gMethodTypeList[type.value]? = some name) (t : HttpRequest) : 32 ∉ name ∧ 0 ∉ name ∧
      name.length < MAX_METHOD_SIZE ∧ (t.parseMethod name).mMethod = type := by
  cases type
  case kMethodUnknown => cases h
  all_goals
    cases h
    exact ⟨by decide,by decide,by decide,rfl⟩

theorem mem_targetText {path query : Str} {c : Char} (h : c ∈ URI.targetText path query) :
    c ∈ path ++ query ∨ c = '?' := by
  unfold URI.targetText at h
  rcases List.mem_append.mp h with hpath | hquery
  · exact .inl (List.mem_append_left query hpath)
  · split at hquery
    · rcases List.mem_cons.mp hquery with hmark | hquery
      · exact .inr hmark
      · exact .inl (List.mem_append_right path hquery)
    · cases hquery

theorem mem_targetText_of {path query : Str} {c : Char} (h : c ∈ path ++ query) :
    c ∈ URI.targetText path query := by
  unfold URI.targetText
  rcases List.mem_append.mp h with hpath | hquery
  · exact List.mem_append_left _ hpath
  · rw [if_pos (List.ne_nil_of_mem hquery)]
    exact List.mem_append_right path (List.mem_cons_of_mem '?' hquery)

/-- Cutting the target at a NUL is the only way in which its C string differs. -/
theorem length_cStr_lt {bs : List UInt8} (h : 0 ∈ bs) : (cStr bs).length < bs.length := by
  have hsub := List.takeWhile_sublist (p := fun b : UInt8 => decide (b ≠ 0)) (l := bs)
  refine lt_of_le_of_ne hsub.length_le fun hlen => ?_
  have hall := List.takeWhile_eq_self_iff.mp (hsub.eq_of_length hlen) 0 h
  simp at hall

variable {s t : HttpRequest} {N : ℕ} {buf : CircularBuffer} {line rest : List UInt8}

theorem heads_iff {uri : URI} (huri : Requestable uri) :
    URI.Heads (URI.targetText uri.getPath uri.getQuery.1) ↔
      ':' ∈ uri.getPath ++ uri.getQuery.1 ∨ ['/','/'] <+: uri.getPath := by
  have hslash := huri.slash
  generalize uri.getPath = path at hslash ⊢
  generalize uri.getQuery.1 = query
  apply or_congr
  · constructor
    · intro hmem
      exact (mem_targetText hmem).resolve_right (by decide)
    · exact mem_targetText_of
  · obtain ⟨path',rfl⟩ := List.head?_eq_some_iff.mp hslash
    unfold URI.targetText
    rw [List.cons_append, List.cons_prefix_cons, List.cons_prefix_cons]
    refine and_congr_right fun _ => ?_
    cases path' with
    | nil =>
      -- a '?' or nothing stands behind the path "/"
      split <;> simp
    | cons c path' => simp

section Target
variable {uri : URI}

theorem Requestable.target_bytes (huri : Requestable uri) :
    ∀ c ∈ URI.targetText uri.getPath uri.getQuery.1, c.toNat < 256 := by
  intro c hc
  rcases mem_targetText hc with hc | rfl
  · exact huri.bytes c hc
  · decide

theorem Requestable.path_ne (huri : Requestable uri) : uri.getPath ≠ [] := by
  intro hnil
  have hslash := huri.slash
  rw [hnil] at hslash
  cases hslash

theorem Requestable.target_ne (huri : Requestable uri) : uri.target ≠ [] := by
  rw [URI.target]
  exact List.append_ne_nil_of_left_ne_nil (fun hnil => huri.path_ne (List.map_eq_nil_iff.mp hnil)) _

theorem Requestable.chars_target (huri : Requestable uri) :
    chars uri.target = URI.targetText uri.getPath uri.getQuery.1 := by
  rw [URI.target_eq, chars_asciiBytes huri.target_bytes]

theorem Requestable.no_space (huri : Requestable uri) : 32 ∉ uri.target := by
  rw [URI.target_eq, mem_asciiBytes huri.target_bytes]
  rintro ⟨c,hc,hval⟩
  obtain rfl : c = ' ' := Char.toNat_inj.mp hval
  rcases mem_targetText hc with hc | heq
  · exact (huri.plain _ hc).1 rfl
  · exact absurd heq (by decide)

/-- Only a NUL of the path or of the query ends the C string early. -/
theorem Requestable.zero_mem_iff (huri : Requestable uri) :
    0 ∈ uri.target ↔ ∃ c ∈ uri.getPath ++ uri.getQuery.1, c.toNat = 0 := by
  rw [URI.target_eq, mem_asciiBytes huri.target_bytes]
  constructor
  · rintro ⟨c,hc,hval⟩
    rcases mem_targetText hc with hc | rfl
    · exact ⟨c,hc,hval⟩
    · exact absurd hval (by decide)
  · rintro ⟨c,hc,hval⟩
    exact ⟨c,mem_targetText_of hc,hval⟩

/-- A URI that is parsed back from its target has lost nothing and got nothing in front. -/
theorem travels_of_assign (huri : Requestable uri) (hfits : uri.target.length < MAX_URI_SIZE)
    {u : HttpRequest} (hassign : u.assignURI (cStr uri.target) = .ok t)
    (hpath : t.mUri.getPath = uri.getPath) (hquery : t.mUri.getQuery.1 = uri.getQuery.1) :
    Travels uri := by
  obtain ⟨⟨r,v⟩,hset,hassign⟩ := bind_eq_ok.mp hassign
  obtain rfl := Except.ok.inj hassign
  obtain ⟨r',v',hset',-,-,hflushed,-⟩ := URI.setString_ok u.mUri (chars (cStr uri.target))
  rw [hset, Except.ok.injEq, Prod.mk.injEq] at hset'
  obtain ⟨-,rfl⟩ := hset'
  have hvquery : v.mQueryString = uri.getQuery.1 := by
    rw [← hquery, URI.getQuery, URI.buildQuery, if_pos hflushed]
  have hvpath : v.mPath = uri.getPath := hpath
  obtain ⟨hle,hlt⟩ := URI.setString_length hset (by rw [hvpath]; exact huri.path_ne)
  have hlength : (URI.targetText v.mPath v.mQueryString).length = uri.target.length := by
    rw [hvpath, hvquery, ← huri.chars_target, chars, List.length_map]
  rw [hlength, chars, List.length_map] at hle hlt
  -- what was parsed is as long as the target, so nothing is cut off and nothing stands in front
  have hnone : 0 ∉ uri.target := fun hmem => not_lt.mpr hle (length_cStr_lt hmem)
  have hno : ¬URI.Heads (URI.targetText uri.getPath uri.getQuery.1) := by
    intro hhead
    rw [HttpResponse.cStr_eq_self hnone, ← chars, huri.chars_target] at hlt
    exact lt_irrefl _ (hlt hhead)
  rw [heads_iff huri, not_or] at hno
  exact ⟨hno.1,hno.2,fun c hc hc0 => hnone (huri.zero_mem_iff.mpr ⟨c,hc,hc0⟩),hfits⟩

theorem assign_of_travels (huri : Requestable uri) (htravels : Travels uri) (u : HttpRequest) :
    ∃ t : HttpRequest, u.assignURI (cStr uri.target) = .ok t ∧ t.mMethod = u.mMethod ∧
      t.mUri.getPath = uri.getPath ∧ t.mUri.getQuery.1 = uri.getQuery.1 := by
  have hsame : cStr uri.target = uri.target := by
    apply HttpResponse.cStr_eq_self
    rw [huri.zero_mem_iff]
    rintro ⟨c,hc,hval⟩
    exact htravels.nul c hc hval
  have hno : ¬URI.Heads (URI.targetText uri.getPath uri.getQuery.1) := by
    rw [heads_iff huri, not_or]
    exact ⟨htravels.colon,htravels.slashes⟩
  obtain ⟨r,v,hset,hpath,hquery⟩ := URI.setString_target u.mUri huri.slash huri.mark
    (fun hmem => (huri.plain _ (List.mem_append_right _ hmem)).2.1 rfl) hno
  refine ⟨{ u with mUri := v },?_,rfl,hpath,hquery⟩
  rw [assignURI, hsame, huri.chars_target, hset]
  rfl

end Target

/-- A request line is read up to its end, if its target fits. -/
theorem parseFirstLine_request (t : HttpRequest) (huri : Requestable s.mUri)
    (hline : HttpMessage.firstLine (.request s) = some line) (hbuf : buf.Holds N (line ++ rest)) :
    ∃ u : HttpRequest, u.mMethod = s.mMethod ∧ t.parseFirstLine buf =
      if s.mUri.target.length < MAX_URI_SIZE then (do
        let t ← u.assignURI (cStr s.mUri.target)
        .ok ((line.length : ℕ),t))
      else .ok (-1,t) := by
  obtain ⟨name,hname,hline⟩ := Option.bind_eq_some_iff.mp hline
  obtain rfl := Option.some.inj hline
  obtain ⟨hspace,hnul,hshort,hparse⟩ := parseMethod_name hname (t.parseProtocol (text "HTTP/1.1"))
  have hbuf' : buf.Holds N (name ++ 32 :: (s.mUri.target ++
      32 :: (text "HTTP/1.1" ++ 13 :: 10 :: rest))) := by
    have hend : text " HTTP/1.1\r\n" ++ rest = 32 :: (text "HTTP/1.1" ++ 13 :: 10 :: rest) := rfl
    have hspace' : text " " = [32] := rfl
    rw [← hend]
    simpa only [List.append_assoc, hspace', List.cons_append, List.nil_append] using hbuf
  have heq := parseFirstLine_eq t hbuf' hspace hshort huri.no_space huri.target_ne (by decide) (by decide)
  have hproto : cStr (text "HTTP/1.1") = text "HTTP/1.1" := by decide
  have hlength : name.length+s.mUri.target.length+(text "HTTP/1.1").length+4 =
      (name ++ (text " " ++ (s.mUri.target ++ text " HTTP/1.1\r\n"))).length := by
    have hspace' : (text " ").length = 1 := rfl
    have hproto' : (text "HTTP/1.1").length = 8 := rfl
    have hend : (text " HTTP/1.1\r\n").length = 11 := rfl
    simp only [List.length_append]
    omega
  rw [hproto, HttpResponse.cStr_eq_self hnul, hlength] at heq
  exact ⟨_,hparse,heq⟩

theorem readsBack_iff (huri : Requestable s.mUri)
    (hline : HttpMessage.firstLine (.request s) = some line) (hbuf : buf.Holds N (line ++ rest)) :
    ReadsBack t buf line s ↔ Travels s.mUri := by
  obtain ⟨u,hmethod,heq⟩ := parseFirstLine_request t huri hline hbuf
  constructor
  · rintro ⟨t',ht',-,hpath,hquery⟩
    rw [heq] at ht'
    split at ht'
    · rename_i hfits
      obtain ⟨t₁,hassign,ht'⟩ := bind_eq_ok.mp ht'
      obtain ⟨-,rfl⟩ := Prod.mk.inj (Except.ok.inj ht')
      exact travels_of_assign huri hfits hassign hpath hquery
    · obtain ⟨hlen,-⟩ := Prod.mk.inj (Except.ok.inj ht')
      omega
  · intro htravels
    obtain ⟨t',hassign,hmethod',hpath,hquery⟩ := assign_of_travels huri htravels u
    rw [if_pos htravels.short, hassign] at heq
    exact ⟨t',heq,hmethod'.trans hmethod,hpath,hquery⟩

/-- For every method of the table and every URI that a request line is meant to carry, the line is
built, and is read back exactly when the URI is one that travels. -/
theorem parseFirstLine_buildFirstLine_iff {s : HttpRequest} (hmethod : s.mMethod ≠ .kMethodUnknown)
    (huri : Requestable s.mUri) : ∃ line s', s.buildFirstLine = .ok (line.length,s') ∧
      s'.mHeaderStr = line ∧ ∀ (t : HttpRequest) (N : ℕ) (buf : CircularBuffer) (rest : List UInt8),
        buf.Holds N (line ++ rest) → (ReadsBack t buf line s ↔ Travels s.mUri) := by
  have hbuild := HttpMessage.buildFirstLine_request s
  cases hline : HttpMessage.firstLine (.request s) with
  | none =>
    obtain ⟨name,hname⟩ := Option.ne_none_iff_exists'.mp
      (fun hnone => hmethod ((HttpMessage.method_listed _).mp hnone))
    simp only [HttpMessage.firstLine, hname, Option.bind_eq_bind, Option.bind_some, reduceCtorEq] at hline
  | some line =>
    rw [hline] at hbuild
    exact ⟨line,_,hbuild,rfl,fun t N buf rest hbuf => readsBack_iff huri hline hbuf⟩

/-- A request for a page with a question. -/
def getPage : HttpRequest :=
  { init with
    mMethod := .kMethodGet
    mUri := { URI.init.setPath ['/','a'] false with mQueryString := ['b','=','1'] } }

theorem forall_of_all {p : Char → Prop} [DecidablePred p] {cs : Str}
    (h : cs.all (fun c => decide (p c)) = true) : ∀ c ∈ cs, p c :=
  fun c hc => of_decide_eq_true (List.all_eq_true.mp h c hc)

theorem getPage_requestable : Requestable getPage.mUri where
  slash := rfl
  bytes := forall_of_all (by decide)
  plain := forall_of_all (by decide)
  mark := by decide
  short := by decide

theorem getPage_travels : Travels getPage.mUri where
  colon := by decide
  slashes := by decide
  nul := forall_of_all (by decide)
  short := by decide

theorem parseFirstLine_buildFirstLine_iff_getPage : ∃ line buf, ReadsBack init buf line getPage := by
  obtain ⟨line,s',-,-,hiff⟩ := parseFirstLine_buildFirstLine_iff (s := getPage) (by decide)
    getPage_requestable
  obtain ⟨N,buf,hbuf⟩ := exists_holds (line ++ [])
  exact ⟨line,buf,(hiff init N buf [] hbuf).mpr getPage_travels⟩

/-- A request for a page with a ':' in its name. -/
def colonRequest : HttpRequest :=
  { init with mMethod := .kMethodGet, mUri := URI.init.setPath ['/','a',':','b'] false }

/-- The path behind the ':' is taken for an authority. -/
theorem readsBack_colon : Requestable colonRequest.mUri ∧ ∃ line s',
    colonRequest.buildFirstLine = .ok (line.length,s') ∧ s'.mHeaderStr = line ∧
      ∀ N buf, CircularBuffer.Holds N buf line → ¬ReadsBack init buf line colonRequest := by
  have huri : Requestable colonRequest.mUri :=
    { slash := rfl
      bytes := forall_of_all (by decide)
      plain := forall_of_all (by decide)
      mark := by decide
      short := by decide }
  refine ⟨huri,text "GET /a:b HTTP/1.1\r\n",_,rfl,rfl,fun N buf hbuf => ?_⟩
  have hline : HttpMessage.firstLine (.request colonRequest) = some (text "GET /a:b HTTP/1.1\r\n") := rfl
  have hbuf' : buf.Holds N (text "GET /a:b HTTP/1.1\r\n" ++ []) := by rwa [List.append_nil]
  rw [readsBack_iff huri hline hbuf']
  intro htravels
  exact htravels.colon (by decide)

end HttpRequest

end JhCommon
