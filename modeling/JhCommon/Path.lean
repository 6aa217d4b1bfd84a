import JhCommon.Split

/-! `Path::normalize` of `Path.cpp`, on the string that a path is. -/
namespace JhCommon

/-- `vector` of `jh_vector.h` as far as a path needs it: out of range, operator [] gives a
reference to NULL, and erase calls abort. -/
abbrev PartVector := List Str

namespace PartVector

def lookup (v : PartVector) (i : ℕ) : Exec Str :=
  match v[i]? with
  | some part => .ok part
  | none => .error .nullDeref

def erase (v : PartVector) (i : ℕ) : Exec PartVector :=
  if i < v.length then .ok (v.eraseIdx i) else .error .fatal

/-- size() - 1, which is unsigned. -/
def last (v : PartVector) : ℕ := if v.length = 0 then 2^32-1 else v.length-1

end PartVector

namespace Path

def dot : Str := ['.']

def dotdot : Str := ['.','.']

/-- In front of the end of an empty path stands the terminating NUL. -/
def isRelative (path : Str) : Bool := if path.head? = some '/' then false else true

/-- The first loop of `normalize`: what remains of the parts, with its variables start and
parts2. -/
def normalizeParts : List Str → Bool → PartVector → Exec PartVector
  | [], _, parts2 => .ok parts2
  | part :: parts, start, parts2 =>
    if part = dotdot then
      if start = false then do
        let parts2 ← parts2.erase parts2.last
        normalizeParts parts start parts2
      else normalizeParts parts start (parts2 ++ [part])
    else if part ≠ dot ∧ part ≠ [] then normalizeParts parts false (parts2 ++ [part])
    else normalizeParts parts start parts2

/-- The second loop of `normalize`, with so many turns to go from i on. -/
def appendParts (parts2 : PartVector) : ℕ → ℕ → Str → Exec Str
  | 0, _, path => .ok path
  | turns+1, i, path => do
    let part ← parts2.lookup i
    appendParts parts2 turns (i+1) (path ++ part ++ ['/'])

/-- The new path. The value returned is true. -/
def normalize (path : Str) : Exec Str := do
  let parts ← path.split ['/']
  let parts2 ← normalizeParts parts true []
  let path := if isRelative path = false then ['/'] else []
  let path ← appendParts parts2 parts2.last 0 path
  let part ← parts2.lookup parts2.last
  .ok (path ++ part)

end Path

end JhCommon
