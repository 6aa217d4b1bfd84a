import JhCommon.CircularBuffer
import JhCommon.NumberText

/-! The headers of `HttpHeaderBase.cpp`, `HttpHeader.cpp` and `HttpResponse.cpp`. Locking and
logging are left out, and so are field maps other than the one of HTTP. -/
namespace JhCommon

def kInvalidFieldType : ℤ := -1
def kHttpFieldMapStart : ℤ := 1000
def kFieldContentLength : ℤ := kHttpFieldMapStart+12
def kFieldTransferEncoding : ℤ := kHttpFieldMapStart+40
def kMaxFields : ℕ := 32
def kStatusCodeSize : ℕ := 16
def kEOH : ℤ := 0

def gFieldTypeList : List (List UInt8) :=
  ["Accept","Accept-Charset","Accept-Encoding","Accept-Language","Accept-Ranges","Age","Allow",
    "Authorization","Cache-Control","Connection","Content-Encoding","Content-Language",
    "Content-Length","Content-Location","Content-MD5","Content-Range","Content-Type","Date","ETag",
    "Expect","Expires","From","Host","If-Match","If-Modified-Since","If-None-Match","If-Range",
    "If-Unmodified-Since","Last-Modified","Location","Max-Forwards","Pragma","Proxy-Authenticate",
    "Proxy-Authorization","Range","Referer","Retry-After","Server","TE","Trailer",
    "Transfer-Encoding","Upgrade","User-Agent","Vary","Via","Warning","WWW-Authenticate"].map text

def gResponseCodeList : List (ℤ × List UInt8) :=
  [(100,"Continue"),(100,"Switching Protocols"),(200,"OK"),(201,"Created"),(202,"Accepted"),
    (203,"Non-Authorative Information"),(204,"No Content"),(205,"Reset Content"),
    (206,"Partial Content"),(300,"Multiple Choices"),(301,"Moved Permanently"),(302,"Found"),
    (303,"See Other"),(304,"Not Modified"),(305,"Use Proxy"),(305,"Temporary Redirect"),
    (400,"Bad Request"),(401,"Unauthorized"),(402,"Payment Required"),(403,"Forbidden"),
    (404,"Not Found"),(405,"Method Not Allowed"),(406,"Not Acceptable"),
    (407,"Proxy Authentication Required"),(408,"Request Timeout"),(410,"Gone"),
    (411,"Length Required"),(412,"Precondition Failed"),(413,"Request Entity Too Large"),
    (414,"Request-URI Too Long"),(415,"Unsupported Media Type"),
    (416,"Request Range Not Satisfiable"),(417,"Expectation Failed"),
    (500,"Internal Server Error"),(501,"Not Implemented"),(502,"Bad Gateway"),
    (503,"Service Unavailable"),(504,"Gateway Timeout"),(505,"HTTP Version Not Supported")].map
    fun entry => (entry.1,text entry.2)

def toLower (c : UInt8) : UInt8 := if 65 ≤ c ∧ c ≤ 90 then c+32 else c

/-- `strcasecmp` tells no difference. -/
def sameNoCase (s t : List UInt8) : Bool := decide ((cStr s).map toLower = (cStr t).map toLower)

def getFieldType (field : List UInt8) : ℤ :=
  match gFieldTypeList.findIdx? (fun name => sameNoCase field name) with
  | some i => kHttpFieldMapStart+i
  | none => kInvalidFieldType

def getFieldTypeString (type : ℤ) : Option (List UInt8) :=
  if kHttpFieldMapStart ≤ type then gFieldTypeList[(type-kHttpFieldMapStart).toNat]? else none

def getResponseString (code : ℤ) : List UInt8 :=
  match gResponseCodeList.find? (fun entry => entry.1 = code) with
  | some entry => entry.2
  | none => text "Unknown HTTP error"

structure HeaderField where
  mType : ℤ
  mData : List UInt8
  deriving DecidableEq

/-- The first mNumFields fields are in a list. -/
structure HttpResponse where
  mResponseCode : ℤ
  mFields : List HeaderField
  mHeaderStr : List UInt8
  deriving DecidableEq

def crlf : List UInt8 := [13,10]

/-- The error codes that the modelled calls return. -/
inductive ErrCode
  | kNoError
  | kNotFound
  | kReadFailed
  deriving DecidableEq

namespace HttpResponse

def init : HttpResponse := { mResponseCode := 200, mFields := [], mHeaderStr := [] }

def setResponseCode (s : HttpResponse) (code : ℤ) : HttpResponse := { s with mResponseCode := code }

def addField (s : HttpResponse) (type : ℤ) (data : List UInt8) : Bool × HttpResponse :=
  if kMaxFields ≤ s.mFields.length then (false,s)
  else (true,{ s with mFields := s.mFields ++ [⟨type,cStr data⟩], mHeaderStr := [] })

def getField (s : HttpResponse) (type : ℤ) : Option (List UInt8) :=
  (s.mFields.find? (fun f => f.mType = type)).map HeaderField.mData

def getFieldInt (s : HttpResponse) (type : ℤ) : ErrCode × ℤ :=
  match s.getField type with
  | some str => (.kNoError,toInt32 (strtolBase 0 (cStr str)))
  | none => (.kNotFound,0)

def buildFirstLine (s : HttpResponse) : Exec (ℕ × HttpResponse) :=
  let statusCodeBuf := decimal s.mResponseCode
  if kStatusCodeSize ≤ statusCodeBuf.length then .error .fatal
  else
    let line := text "HTTP/1.1 " ++ statusCodeBuf ++ [32] ++ getResponseString s.mResponseCode ++ crlf
    .ok (line.length,{ s with mHeaderStr := line })

/-- The loop of `buildHeader` over the fields. -/
def buildFields : List HeaderField → Exec (List UInt8)
  | [] => .ok []
  | f :: fields =>
    match getFieldTypeString f.mType with
    | none => .error .nullDeref
    | some name => do
      let rest ← buildFields fields
      .ok (name ++ [58,32] ++ f.mData ++ crlf ++ rest)

def buildHeader (s : HttpResponse) : Exec HttpResponse := do
  let (n,s) ← s.buildFirstLine
  if n = 0 then .ok { s with mHeaderStr := [] }
  else do
    let fields ← buildFields s.mFields
    .ok { s with mHeaderStr := s.mHeaderStr ++ fields ++ crlf }

def getHeader (s : HttpResponse) : Exec (List UInt8 × HttpResponse) := do
  let s ← if s.mHeaderStr = [] then s.buildHeader else .ok s
  .ok (cStr s.mHeaderStr,s)

end HttpResponse

namespace CircularBuffer

inductive SearchState
  | searchCR
  | haveCR

/-- The loop of `searchForLine` at index i, with n bytes to come. The length is always i+1. -/
def searchFrom (buffer : CircularBuffer) : ℕ → ℕ → SearchState → ℤ
  | 0, _, _ => -1
  | n+1, i, state =>
    let c := buffer.byteAt i
    if c = -1 then -1
    else
      match state with
      | .searchCR => searchFrom buffer n (i+1) (if c = 13 then .haveCR else .searchCR)
      | .haveCR =>
        if c = 10 then
          let c := buffer.byteAt (i+1)
          if i+1 = 2 then kEOH
          else if c = 32 ∨ c = 9 then searchFrom buffer n (i+1) .searchCR
          else (i+1 : ℕ)
        else searchFrom buffer n (i+1) .searchCR

def searchForLine (buffer : CircularBuffer) : ℤ := searchFrom buffer buffer.getLength 0 .searchCR

/-- A byte as it is appended to a string. -/
def charAt (buffer : CircularBuffer) (i : ℕ) : UInt8 := UInt8.ofNat (buffer.byteAt i).toNat

end CircularBuffer

namespace HttpResponse

inductive LineState
  | parseField
  | parseData
  | parseCRLF
  | skipWS

/-- A line has been read. There is no check that it finds room in mFields. -/
def storeField (s : HttpResponse) (field data : List UInt8) : Exec HttpResponse :=
  let type := getFieldType (cStr field)
  if type ≠ kInvalidFieldType then
    if s.mFields.length < kMaxFields then
      .ok { s with mFields := s.mFields ++ [⟨type,cStr data⟩] }
    else .error .outOfBounds
  else .ok s

/-- The loop of `parseLine` at index i, with n bytes to come. The length is always i+1. -/
def parseLineFrom (s : HttpResponse) (buffer : CircularBuffer) : ℕ → ℕ → LineState → List UInt8 →
    List UInt8 → Bool → Exec (ℤ × HttpResponse)
  | 0, _, _, _, _, _ => .ok (-1,s)
  | n+1, i, state, field, data, appendSpace =>
    let c := buffer.byteAt i
    if c = -1 then .ok (-1,s)
    else
      match state with
      | .parseField =>
        if c = 58 then parseLineFrom s buffer n (i+1) .skipWS field data false
        else parseLineFrom s buffer n (i+1) .parseField (field ++ [buffer.charAt i]) data appendSpace
      | .parseData =>
        if c = 13 ∧ buffer.byteAt (i+1) = 10 then
          parseLineFrom s buffer n (i+1) .parseCRLF field data true
        else
          parseLineFrom s buffer n (i+1) .parseData field (data ++ [buffer.charAt i]) appendSpace
      | .parseCRLF =>
        if c = 10 then
          if buffer.byteAt (i+1) = 32 ∨ buffer.byteAt (i+1) = 9 then
            parseLineFrom s buffer n (i+1) .skipWS field data appendSpace
          else do
            let s ← s.storeField field data
            .ok ((i+1 : ℕ),s)
        else parseLineFrom s buffer n (i+1) .parseCRLF field data appendSpace
      | .skipWS =>
        if c = 13 ∧ buffer.byteAt (i+1) = 10 then
          parseLineFrom s buffer n (i+1) .parseCRLF field data appendSpace
        else if c ≠ 9 ∧ c ≠ 32 then
          let space := if appendSpace = true then [32] else []
          parseLineFrom s buffer n (i+1) .parseData field (data ++ space ++ [buffer.charAt i]) false
        else parseLineFrom s buffer n (i+1) .skipWS field data appendSpace

def parseLine (s : HttpResponse) (buffer : CircularBuffer) : Exec (ℤ × HttpResponse) :=
  parseLineFrom s buffer buffer.getLength 0 .parseField [] [] false

inductive FirstLineState
  | parseProtocol
  | seekStatusCode
  | parseStatusCode
  | seekStatusText
  | parseStatusText

/-- The end of the first line has been seen, and i is the index behind it. -/
def endFirstLine (s : HttpResponse) (buf : CircularBuffer) (i : ℕ) : ℤ :=
  let i := if i < buf.getLength ∧ buf.byteAt i = 10 then i+1 else i
  if s.mResponseCode = 100 ∧ i+1 < buf.getLength ∧ buf.byteAt i = 13 ∧ buf.byteAt (i+1) = 10 then
    (i+2 : ℕ)
  else (i : ℕ)

/-- The loop of `parseFirstLine` at index i, with n bytes to come. Where a case of the switch falls
through to the next one, what that one does is repeated. -/
def parseFirstLineFrom (s : HttpResponse) (buf : CircularBuffer) : ℕ → ℕ → FirstLineState →
    List UInt8 → ℤ × HttpResponse
  | 0, _, _, _ => (-1,s)
  | n+1, i, state, statusCodeStr =>
    let c := buf.byteAt i
    match state with
    | .parseProtocol =>
      if c ≠ 32 then parseFirstLineFrom s buf n (i+1) .parseProtocol statusCodeStr
      else parseFirstLineFrom s buf n (i+1) .seekStatusCode statusCodeStr
    | .seekStatusCode =>
      if c = 32 then parseFirstLineFrom s buf n (i+1) .seekStatusCode statusCodeStr
      else parseFirstLineFrom s buf n (i+1) .parseStatusCode (statusCodeStr ++ [buf.charAt i])
    | .parseStatusCode =>
      if c ≠ 32 then
        parseFirstLineFrom s buf n (i+1) .parseStatusCode (statusCodeStr ++ [buf.charAt i])
      else
        let res := strtol (cStr statusCodeStr)
        let s := { s with mResponseCode := toInt32 res.value }
        -- ParsingError ends the loop
        if res.converted = false ∨ res.outOfRange = true then (-1,s)
        else parseFirstLineFrom s buf n (i+1) .seekStatusText statusCodeStr
    | .seekStatusText =>
      if c = 32 then parseFirstLineFrom s buf n (i+1) .seekStatusText statusCodeStr
      else if c ≠ 13 ∧ c ≠ 10 then parseFirstLineFrom s buf n (i+1) .parseStatusText statusCodeStr
      else (s.endFirstLine buf (i+1),s)
    | .parseStatusText =>
      if c ≠ 13 ∧ c ≠ 10 then parseFirstLineFrom s buf n (i+1) .parseStatusText statusCodeStr
      else (s.endFirstLine buf (i+1),s)

def parseFirstLine (s : HttpResponse) (buf : CircularBuffer) : ℤ × HttpResponse :=
  if buf.getLength ≤ 1 then (-1,s)
  else if buf.byteAt 0 = 13 ∧ buf.byteAt 1 = 10 then (2,s)
  else parseFirstLineFrom s buf buf.getLength 0 .parseProtocol []

/-- The loop of `HttpAgent::sendAndGet` over the lines that the buffer holds. -/
def readLines : ℕ → HttpResponse → Bool → CircularBuffer →
    Exec (HttpResponse × Bool × CircularBuffer)
  | 0, _, _, _ => .error .outOfFuel
  | fuel+1, res, firstLine, mBuffer =>
    if 0 < mBuffer.searchForLine then do
      let (len,res) ← if firstLine = true then .ok (res.parseFirstLine mBuffer)
        else res.parseLine mBuffer
      if len < 0 then readLines fuel res false mBuffer
      else do
        let (_,mBuffer) ← mBuffer.read false len.toNat
        readLines fuel res false mBuffer
    else .ok (res,firstLine,mBuffer)

end HttpResponse

end JhCommon
