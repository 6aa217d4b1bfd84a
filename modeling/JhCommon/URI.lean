import JhCommon.StdString

/-! The URI of `URI.cpp`: its components, the query held twice, and the cached full string. The
mutable members that the const calls flush are fields like the others. -/
namespace JhCommon

structure QueryParam where
  mKey : Str
  mParam : Str
  deriving DecidableEq

structure URI where
  mRelative : Bool
  mModified : Bool
  mModifiedQuery : Bool
  mFullString : Str
  mQueryString : Str
  mScheme : Str
  mAuthority : Str
  mPath : Str
  mFragment : Str
  mQueryParams : List QueryParam
  deriving DecidableEq

namespace URI

def init : URI :=
  { mRelative := false, mModified := false, mModifiedQuery := false, mFullString := [],
    mQueryString := [], mScheme := [], mAuthority := [], mPath := [], mFragment := [],
    mQueryParams := [] }

def clear (s : URI) : URI :=
  { s with
    mRelative := false, mModified := false, mModifiedQuery := false, mFullString := [],
    mQueryString := [], mScheme := [], mAuthority := [], mPath := [], mFragment := [],
    mQueryParams := [] }

def getScheme (s : URI) : Str := s.mScheme

def setScheme (s : URI) (scheme : Str) : URI := { s with mModified := true, mScheme := scheme }

def getAuthority (s : URI) : Str := s.mAuthority

def setAuthority (s : URI) (authority : Str) : URI :=
  { s with mModified := true, mAuthority := authority }

def getPath (s : URI) : Str := s.mPath

/-- The character in front of the end of an empty path is the terminating NUL. -/
def setPath (s : URI) (path : Str) (relative : Bool) : URI :=
  { s with
    mModified := true
    mPath := if path.head? ≠ some '/' ∧ relative = false then '/' :: path else path
    mRelative := relative }

def getFragment (s : URI) : Str := s.mFragment

def setFragment (s : URI) (fragment : Str) : URI :=
  { s with mModified := true, mFragment := fragment }

/-- The loop of `buildQuery`, from its i-th turn on. -/
def appendParams (str : Str) (i : ℕ) : List QueryParam → Str
  | [] => str
  | p :: rest =>
    let str := if i ≠ 0 then str ++ ['&'] else str
    appendParams (str ++ p.mKey ++ ['='] ++ p.mParam) (i+1) rest

def buildQuery (s : URI) : URI :=
  if s.mModifiedQuery = false then s
  else { s with mQueryString := appendParams [] 0 s.mQueryParams, mModifiedQuery := false }

def getQuery (s : URI) : Str × URI := (s.buildQuery.mQueryString,s.buildQuery)

/-- The loop of `parseQuery`: the value it returns, and the parameters it has pushed behind the
ones there were. -/
def parseParams (query : Str) : ℕ → ℕ → List QueryParam → Exec (Bool × List QueryParam)
  | 0, _, _ => .error .outOfFuel
  | fuel+1, start, params =>
    match query.find ['='] start with
    | none => .ok (false,params)
    | some off => do
      let key ← query.substr start (some (off-start))
      let start := off+1
      match query.find ['&'] start with
      | none => do
        let param ← query.substr start none
        .ok (true,params ++ [⟨key,param⟩])
      | some off => do
        let param ← query.substr start (some (off-start))
        let start := off+1
        let params := params ++ [⟨key,param⟩]
        -- the condition of the loop
        if query.find ['='] start = none then .ok (true,params)
        else parseParams query fuel start params

def parseQuery (s : URI) : Exec (Bool × URI) :=
  let s := { s with mModifiedQuery := false }
  if s.mQueryString = [] then .ok (true,{ s with mQueryParams := [] })
  else do
    let (res,params) ← parseParams s.mQueryString (s.mQueryString.length+1) 0 s.mQueryParams
    .ok (res,{ s with mQueryParams := params })

def setQuery (s : URI) (query : Str) : Exec URI := do
  let (_,s) ← { s with mQueryString := query }.parseQuery
  .ok s

def appendQueryParam (s : URI) (key value : Str) : URI :=
  { s with
    mQueryParams := s.mQueryParams ++ [⟨key,value⟩], mModifiedQuery := true, mModified := true }

def findParam (s : URI) (key : Str) : Option ℕ := s.mQueryParams.findIdx? (·.mKey = key)

def removeQueryParam (s : URI) (key : Str) : URI :=
  match s.findParam key with
  | some i => { s with mQueryParams := s.mQueryParams.eraseIdx i, mModifiedQuery := true }
  | none => { s with mModifiedQuery := true }

def getQueryParam (s : URI) (key : Str) : Str :=
  match s.findParam key with
  | some i => (s.mQueryParams[i]?.map (·.mParam)).getD []
  | none => []

def getPathAndQuery (s : URI) : Str :=
  if s.mQueryString = [] then s.mPath else s.mPath ++ ['?'] ++ s.mQueryString

def mailto : Str := ['m','a','i','l','t','o']

def news : Str := ['n','e','w','s']

def buildString (s : URI) : URI :=
  if s.mModified = false then s
  else
    let str := if s.mScheme ≠ [] then s.mScheme ++ [':'] else []
    let str :=
      if s.mAuthority ≠ [] then
        -- these do not add a "//"
        (if s.mScheme ≠ mailto ∧ s.mScheme ≠ news then str ++ ['/','/'] else str) ++ s.mAuthority
      else str
    let str := str ++ s.mPath
    let s := s.buildQuery
    let str := if s.mQueryString ≠ [] then str ++ ['?'] ++ s.mQueryString else str
    let str := if s.mFragment ≠ [] then str ++ ['#'] ++ s.mFragment else str
    { s with mFullString := str, mModified := false }

def getString (s : URI) : Str × URI := (s.buildString.mFullString,s.buildString)

/-- `copyValues`: what a URI is after an assignment from a different one. -/
def copyValues (other : URI) : URI :=
  { other.buildString with mModified := false, mModifiedQuery := false }

/-- The result of `operator==`, with both sides flushed. -/
def eq (s other : URI) : Bool × URI × URI :=
  let other := other.buildString
  let s := s.buildString
  (s.mFullString = other.mFullString,s,other)

/-- The first part of `parseString`: the scheme, and where to go on. -/
def parseScheme (s : URI) : Exec (URI × ℕ) :=
  match s.mFullString.find [':'] 0 with
  | some off => do
    let scheme ← s.mFullString.substr 0 (some off)
    .ok ({ s with mScheme := scheme },off+1)
  | none => .ok (s,0)

/-- Whether an authority follows, where it starts, and whether the URI is a relative one. -/
def findAuthority (s : URI) (start : ℕ) : Bool × ℕ × Bool :=
  if s.mFullString.find ['/','/'] start = some start then (true,start+2,false)
  else if s.mFullString.find ['/'] start ≠ some start then
    if s.mScheme = [] then (false,start,true) else (true,start,false)
  else (false,start,false)

/-- The second part: the authority, and where the path starts, which is npos without a '/'. -/
def parseAuthority (s : URI) (start : ℕ) : Exec (URI × Option ℕ) :=
  let (hasAuth,start,relative) := s.findAuthority start
  let s := { s with mRelative := relative }
  if hasAuth then do
    let off := s.mFullString.find ['/'] start
    let authority ← s.mFullString.substr start (off.map (·-start))
    .ok ({ s with mAuthority := authority },off)
  else .ok (s,some start)

/-- The last part: the path, the query and the fragment. -/
def parsePath (s : URI) (start : ℕ) : Exec (Bool × URI) :=
  if start < s.mFullString.length then do
    let off := s.mFullString.find ['?'] start
    let path ← s.mFullString.substr start (off.map (·-start))
    let s := { s with mPath := path }
    match off with
    | none => .ok (true,s)
    | some off => do
      let start := off+1
      let off := s.mFullString.find ['#'] start
      let query ← s.mFullString.substr start (off.map (·-start))
      let (res,s) ← { s with mQueryString := query }.parseQuery
      if res = false then .ok (false,s)
      else match off with
        | none => .ok (true,s)
        | some off => do
          let fragment ← s.mFullString.substr (off+1) none
          .ok (true,{ s with mFragment := fragment })
  else .ok (true,s)

def parseString (s : URI) : Exec (Bool × URI) := do
  let s := { s with mModified := false, mRelative := false }
  let (s,start) ← s.parseScheme
  let (s,start) ← s.parseAuthority start
  match start with
  | none => .ok (true,s)
  | some start => s.parsePath start

def setString (s : URI) (uri : Str) : Exec (Bool × URI) := { s.clear with mFullString := uri }.parseString

end URI

end JhCommon
