import JhCommon.FieldTable
import JhCommon.URI

/-! The request header of `HttpRequest.cpp`. What it inherits from `HttpHeaderBase` does not look at
the first line, and is taken from the response header. -/
namespace JhCommon

/-- The characters that bytes are in a string. -/
def chars (bs : List UInt8) : Str := bs.map fun b => Char.ofNat b.toNat

def MAX_METHOD_SIZE : ℕ := 128
def MAX_URI_SIZE : ℕ := 2048
def MAX_PROTO_SIZE : ℕ := 64

inductive MethodType
  | kMethodOptions
  | kMethodGet
  | kMethodHead
  | kMethodPost
  | kMethodPut
  | kMethodDelete
  | kMethodTrace
  | kMethodConnect
  | kMethodUnknown
  deriving DecidableEq

def gMethodTypeList : List (List UInt8) :=
  ["OPTIONS","GET","HEAD","POST","PUT","DELETE","TRACE","CONNECT"].map text

namespace MethodType

/-- The methods in the order of their names. -/
def listed : List MethodType :=
  [kMethodOptions,kMethodGet,kMethodHead,kMethodPost,kMethodPut,kMethodDelete,kMethodTrace,
    kMethodConnect]

/-- The value of the enumeration. -/
def value (type : MethodType) : ℕ := listed.idxOf type

end MethodType

namespace URI

def getHost (s : URI) : Exec Str := s.mAuthority.substr 0 (s.mAuthority.find [':'] 0)

end URI

structure HttpRequest where
  mMethod : MethodType
  mUri : URI
  mMajor : ℤ
  mMinor : ℤ
  mFields : List HeaderField
  mHeaderStr : List UInt8

namespace HttpRequest

/-- The part that `HttpHeaderBase` keeps. -/
def base (s : HttpRequest) : HttpResponse :=
  { mResponseCode := 0, mFields := s.mFields, mHeaderStr := s.mHeaderStr }

def setBase (s : HttpRequest) (b : HttpResponse) : HttpRequest :=
  { s with mFields := b.mFields, mHeaderStr := b.mHeaderStr }

def fieldStep (s : HttpRequest) (call : FieldCall) : Exec (FieldOutput × HttpRequest) := do
  let (o,b) ← s.base.fieldStep call
  .ok (o,s.setBase b)

def init : HttpRequest :=
  { mMethod := .kMethodUnknown, mUri := .init, mMajor := -1, mMinor := -1, mFields := [],
    mHeaderStr := [] }

def kFieldHost : ℤ := kHttpFieldMapStart+22

def kFieldDate : ℤ := kHttpFieldMapStart+17

/-- The constructor with a URI. It leaves the version uninitialised, and the text of the date is
that of the clock. -/
def ofURI (uri : URI) (type : MethodType) (mMajor mMinor : ℤ) (date : List UInt8) :
    Exec HttpRequest := do
  let s : HttpRequest :=
    { mMethod := type, mUri := uri.copyValues, mMajor := mMajor, mMinor := mMinor, mFields := [],
      mHeaderStr := [] }
  let host ← uri.getHost
  let (_,s) ← s.fieldStep (.addField kFieldHost (asciiBytes host))
  let (_,s) ← s.fieldStep (.addField kFieldDate date)
  .ok s

def setMethod (s : HttpRequest) (type : MethodType) : HttpRequest := { s with mMethod := type }

def setURI (s : HttpRequest) (uri : URI) : HttpRequest := { s with mUri := uri.copyValues }

def buildFirstLine (s : HttpRequest) : Exec (ℕ × HttpRequest) :=
  match gMethodTypeList[s.mMethod.value]? with
  | none => .error .outOfBounds
  | some name =>
    let (query,mUri) := s.mUri.getQuery
    let line := name ++ text " " ++ asciiBytes s.mUri.getPath
    let line := if query ≠ [] then line ++ text "?" ++ asciiBytes query else line
    let line := line ++ text " HTTP/1.1\r\n"
    .ok (line.length,{ s with mUri := mUri, mHeaderStr := line })

def buildHeader (s : HttpRequest) : Exec HttpRequest := do
  let (n,s) ← s.buildFirstLine
  if n = 0 then .ok { s with mHeaderStr := [] }
  else do
    let fields ← HttpResponse.buildFields s.mFields
    .ok { s with mHeaderStr := s.mHeaderStr ++ fields ++ crlf }

def getHeader (s : HttpRequest) : Exec (List UInt8 × HttpRequest) := do
  let s ← if s.mHeaderStr = [] then s.buildHeader else .ok s
  .ok (cStr s.mHeaderStr,s)

/-- A loop of `parseFirstLine` at index i, with n bytes to come: the index behind the stop byte and
the bytes in front of it, which must be fewer than max. -/
def readUntil (buf : CircularBuffer) (stop : ℤ) (max : ℕ) :
    ℕ → ℕ → List UInt8 → Option (ℕ × List UInt8)
  | 0, _, _ => none
  | n+1, i, str =>
    let c := buf.byteAt i
    if c = -1 ∨ buf.getLength < i+1 then none
    else if c = stop then some (i+1,str)
    else
      let str := str ++ [buf.charAt i]
      if max ≤ str.length then none else readUntil buf stop max n (i+1) str

/-- The loop over the spaces behind the method. -/
def skipSpaces (buf : CircularBuffer) : ℕ → ℕ → Option ℕ
  | 0, i => some i
  | n+1, i =>
    if buf.byteAt i = 32 then
      if buf.getLength < i+1 then none else skipSpaces buf n (i+1)
    else some i

def parseMethod (s : HttpRequest) (method : List UInt8) : HttpRequest :=
  match gMethodTypeList.findIdx? (· = method) with
  | some i => { s with mMethod := MethodType.listed.getD i .kMethodUnknown }
  | none => { s with mMethod := .kMethodUnknown }

/-- What `%d` reads: the number and the text behind it. -/
def scanInt (bs : List UInt8) : Option (ℤ × List UInt8) :=
  let digits := bs.dropWhile isSpace
  let digits := if digits.head? = some 45 ∨ digits.head? = some 43 then digits.tail else digits
  let res := strtol bs
  if res.converted = true then some (toInt32 res.value,digits.dropWhile isDigit) else none

def parseProtocol (s : HttpRequest) (protocol : List UInt8) : HttpRequest :=
  if (text "HTTP/").isPrefixOf protocol = false then s
  else match scanInt (protocol.drop (text "HTTP/").length) with
    | none => s
    | some (major,rest) =>
      let s := { s with mMajor := major }
      if rest.head? ≠ some 46 then s
      else match scanInt rest.tail with
        | none => s
        | some (minor,_) => { s with mMinor := minor }

/-- The assignment of a C string to a URI, whose result is not looked at. -/
def assignURI (s : HttpRequest) (uri : List UInt8) : Exec HttpRequest := do
  let (_,mUri) ← s.mUri.setString (chars uri)
  .ok { s with mUri := mUri }

def parseFirstLine (s : HttpRequest) (buf : CircularBuffer) : Exec (ℤ × HttpRequest) :=
  match readUntil buf 32 MAX_METHOD_SIZE (buf.getLength+1) 0 [] with
  | none => .ok (-1,s)
  | some (i,method) =>
    match skipSpaces buf (buf.getLength+1) i with
    | none => .ok (-1,s)
    | some i =>
      match readUntil buf 32 MAX_URI_SIZE (buf.getLength+1) i [] with
      | none => .ok (-1,s)
      | some (i,uri) =>
        match readUntil buf 13 MAX_PROTO_SIZE (buf.getLength+1) i [] with
        | none => .ok (-1,s)
        | some (i,protocol) => do
          let i := if buf.byteAt i = 10 then i+1 else i
          let s := s.parseProtocol (cStr protocol)
          let s := s.parseMethod (cStr method)
          let s ← s.assignURI (cStr uri)
          .ok ((i : ℕ),s)

end HttpRequest

end JhCommon
