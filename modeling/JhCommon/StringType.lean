import JhCommon.StdString
import JhCommon.Word32

/-! The template `split` of `jh_string.h` over the string classes it is used with, which differ in
the width of their size_type; its own variables are unsigned, of 32 bits. -/
namespace JhCommon
open Word32

/-- What `split` calls of a string class. -/
structure StringType (α : Type) where
  npos : ℕ
  findFirstOf : List α → List α → ℕ → ℕ
  substr : List α → ℕ → ℕ → Exec (List α)

namespace StringType

/-- std::string with a size_type of w bits. A position behind the end throws. -/
def std (α : Type) [DecidableEq α] (w : ℕ) : StringType α where
  npos := 2^w-1
  findFirstOf s chars pos := (firstOf s chars pos).getD (2^w-1)
  substr s pos n := if pos > s.length then .error .outOfBounds else .ok ((s.drop pos).take n)

namespace JetHead

def npos : ℕ := 4294967295

/-- The loops of `find_first_of` on what is left of the string from i on. -/
def findFirstOf (chars : List UInt8) : List UInt8 → ℕ → ℕ
  | [], _ => npos
  | c :: rest, i => if c ∈ chars then i else findFirstOf chars rest (i+1)

/-- `basic_string( const charT* s, size_type n )`, where rest and a null character stand at s. -/
def ofChars (rest : List UInt8) (n : ℕ) : Exec (List UInt8) :=
  let n := if n = npos then (rest.takeWhile (· ≠ 0)).length else n
  if n ≤ rest.length+1 then .ok ((rest ++ [0]).take n) else .error .outOfBounds

def substr (s : List UInt8) (pos n : ℕ) : Exec (List UInt8) :=
  if pos ≥ s.length then .ok []
  else
    let n := if add32 pos n > s.length then s.length-pos else n
    ofChars (s.drop pos) n

end JetHead

/-- `JetHead::basic_string<char>`. -/
def jetHead : StringType UInt8 where
  npos := JetHead.npos
  findFirstOf s chars pos := JetHead.findFirstOf chars (s.drop pos) pos
  substr := JetHead.substr

section Split
variable {α : Type} (T : StringType α) (str chars : List α)

/-- What `find_first_of` returns, stored in an unsigned. -/
def position (start : ℕ) : ℕ := T.findFirstOf str chars start % 2^32

/-- The inner loop: step over separators that follow each other. -/
def skipRun : ℕ → ℕ → ℕ → Exec (ℕ × ℕ)
  | 0, _, _ => .error .outOfFuel
  | fuel+1, start, pos =>
    if pos = start then
      let start := add32 pos 1
      skipRun fuel start (T.position str chars start)
    else .ok (start,pos)

/-- The outer loop, and the last piece. An unsigned pos is compared with npos as a size_type. -/
def splitLoop : ℕ → ℕ → ℕ → List (List α) → Exec (List (List α))
  | 0, _, _, _ => .error .outOfFuel
  | fuel+1, start, pos, parts =>
    if pos ≠ T.npos then do
      let part ← T.substr str start (sub32 pos start)
      let start := add32 pos 1
      let (start,pos) ← T.skipRun str chars (str.length+1) start (T.position str chars start)
      splitLoop fuel start pos (parts ++ [part])
    else do
      let part ← T.substr str start (sub32 pos start)
      .ok (parts ++ [part])

/-- `split` into an empty vector: what it returns, and the parts. The size of the vector is
returned as an int. -/
def split (fuel : ℕ) : Exec (ℤ × List (List α)) := do
  let parts ← T.splitLoop str chars fuel 0 (T.position str chars 0) []
  .ok (int32 parts.length,parts)

end Split

end StringType

end JhCommon
