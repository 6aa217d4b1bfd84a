import JhCommon.ListCuts
import JhCommon.NumberText
import JhCommon.StdString
import JhCommon.Word32

/-! `findIncludes` of `jhidl.cpp`: the file names in the `#include` lines of a file that is mapped into
memory. A byte at or behind the length of the file is not read. The size_type of std::string has w bits,
and the variables start and end are unsigned, of 32 bits. The file is one that was opened. -/
namespace JhCommon
open Word32

namespace IncludeScan

def includeWord : Str := ['#','i','n','c','l','u','d','e']

/-- `data[ i ]`. -/
def byteAt (data : Str) (i : ℤ) : Exec Char :=
  if i < 0 then .error .outOfBounds
  else match data[i.toNat]? with
    | some c => .ok c
    | none => .error .outOfBounds

/-- `std::string( data + i, n )`. -/
def bytes (data : Str) (i n : ℤ) : Exec Str :=
  if 0 ≤ i ∧ 0 ≤ n ∧ i+n ≤ data.length then .ok ((data.drop i.toNat).take n.toNat)
  else .error .outOfBounds

/-- The loop that looks for the end of the line from j on. -/
def lineEnd (data : Str) : ℕ → ℤ → Exec ℤ
  | fuel, j =>
    if j < data.length then match fuel with
      | 0 => .error .outOfFuel
      | fuel+1 => do
        let c ← byteAt data j
        if c = '\n' then .ok j else lineEnd data fuel (toInt32 (j+1))
    else .ok j

/-- What `find` returns, stored in an unsigned. -/
def position (w : ℕ) (line pat : Str) (pos : ℕ) : ℕ := (line.find pat pos).getD (2^w-1) % 2^32

/-- `file.assign( line, start + 1, end - start - 1 )`. -/
def fileName (line : Str) (start stop : ℕ) : Exec Str :=
  line.substr (add32 start 1) (some (sub32 (sub32 stop start) 1))

/-- An `ASSERT_ERR` that something was found, which aborts where LOG_ERR_FATAL does. -/
def assertFound (w pos : ℕ) : Exec Unit := if pos = 2^w-1 then .error .fatal else .ok ()

/-- The name in a line, with start and end compared with npos as a size_type. -/
def includeFile (w : ℕ) (line : Str) : Exec Str :=
  let start := position w line ['"'] 8
  -- start has 32 bits, so that a npos of 64 bits is never met
  if start = 2^w-1 then do
    let start := position w line ['<'] 8
    assertFound w start
    let stop := position w line ['>'] (add32 start 1)
    assertFound w stop
    fileName line start stop
  else do
    let stop := position w line ['"'] (add32 start 1)
    assertFound w stop
    fileName line start stop

/-- What is done with a line that begins at i. -/
def addInclude (w : ℕ) (data : Str) (i : ℤ) (included : List Str) : Exec (List Str) := do
  -- the end is looked for from i + 8 on before anything else is looked at
  let j ← lineEnd data (data.length+1) (toInt32 (i+8))
  let line ← bytes data i (j-i)
  if line.find includeWord 0 = some 0 then do
    let file ← includeFile w line
    .ok (included ++ [file])
  else .ok included

/-- The case of a '#'. -/
def hash (w : ℕ) (data : Str) (i : ℤ) (state : ℕ) (included : List Str) : Exec (List Str) :=
  if state = 1 then addInclude w data i included else .ok included

/-- The loop over the file. Behind a newline the state is 1, and a '#' leaves it as it is. -/
def scan (w : ℕ) (data : Str) : ℕ → ℤ → ℕ → List Str → Exec (List Str)
  | fuel, i, state, included =>
    if i < data.length then match fuel with
      | 0 => .error .outOfFuel
      | fuel+1 => do
        let c ← byteAt data i
        if c = '\n' then scan w data fuel (toInt32 (i+1)) 1 included
        else if c = '#' then do
          -- the state stays 1, so that a '#' behind this one is taken as well
          let included ← hash w data i state included
          scan w data fuel (toInt32 (i+1)) state included
        else scan w data fuel (toInt32 (i+1)) 0 included
    else .ok included

def findIncludes (w : ℕ) (data : Str) (included : List Str) : Exec (List Str) :=
  scan w data (data.length+1) 0 1 included

/-- What stands behind the word of a directive and the white space there. -/
def target (line : Str) : Str := (line.drop includeWord.length).dropWhile fun c => c = ' ' ∨ c = '\t'

/-- The text in front of the first c. -/
def upTo (c : Char) (s : Str) : Option Str := if c ∈ s then some (s.takeWhile (· ≠ c)) else none

/-- The file name of a line that is a directive: in quotes, or in angle brackets. -/
def directive (line : Str) : Option Str :=
  if includeWord <+: line then match target line with
    | '"' :: rest => upTo '"' rest
    | '<' :: rest => upTo '>' rest
    | _ => none
  else none

def lines (data : Str) : List Str := data.splitOn '\n'

/-- The file names of the directives that start a line, in order. -/
def directives (data : Str) : List Str := (lines data).filterMap directive

/-- A line that begins with the word of a directive is one. -/
def WellFormed (data : Str) : Prop := ∀ line ∈ lines data, includeWord <+: line → (directive line).isSome

instance (data : Str) : Decidable (WellFormed data) :=
  inferInstanceAs (Decidable (∀ line ∈ lines data, includeWord <+: line → (directive line).isSome))

/-- The text behind the first quote, up to the next one or the end. -/
def firstQuoted (line : Str) : Str := ((line.dropWhile (· ≠ '"')).drop 1).takeWhile (· ≠ '"')

/-- A name in angle brackets that is read as one: in a line without quotes, if npos fits into an unsigned,
and otherwise where the first quotes of the line have the same name. If npos fits, there must be two. -/
def AngleRead (w : ℕ) (line name : Str) : Prop :=
  '"' ∉ line ∧ w = 32 ∨ '"' ∈ line ∧ firstQuoted line = name ∧ (w = 32 → 2 ≤ line.count '"')

/-- The files that are read right. An int has room for the length, and each '#' at the beginning of a line
has seven bytes behind it, as has one that is behind other '#' only. There is no "include" behind more than
one of them, and no name in angle brackets that is not read. -/
structure ReadRight (w : ℕ) (data : Str) : Prop where
  small : data.length < 2^31
  room : ∀ pre hashes post, data = pre ++ (hashes ++ '#' :: post) → (∀ c ∈ pre.getLast?, c = '\n') →
    (∀ c ∈ hashes, c = '#') → 7 ≤ post.length
  single : ∀ line ∈ lines data, ∀ hashes rest, line = hashes ++ rest → hashes ≠ [] →
    (∀ c ∈ hashes, c = '#') → ¬includeWord <+: rest
  quoted : ∀ line ∈ lines data, ∀ name, directive line = some name → (target line).head? = some '<' →
    AngleRead w line name

section Names
variable {w pos start stop : ℕ} {line a b name : Str} {c : Char}

theorem npos_unsigned (hw : w = 32 ∨ w = 64) : (2^w-1) % 2^32 = 2^32-1 := by
  rcases hw with rfl | rfl <;> norm_num

theorem position_found (hlen : line.length < 2^31) (hpos : pos ≤ line.length)
    (hs : line.drop pos = a ++ c :: b) (ha : c ∉ a) : position w line [c] pos = pos+a.length := by
  have hlt := congrArg List.length hs
  simp only [List.length_drop, List.length_append, List.length_cons] at hlt
  rw [position, Str.find_append hpos hs ha, Option.getD_some, Nat.mod_eq_of_lt (by omega)]

theorem position_none (hw : w = 32 ∨ w = 64) (hs : c ∉ line.drop pos) :
    position w line [c] pos = 2^32-1 := by
  rw [position, Str.find_eq_none hs, Option.getD_none, npos_unsigned hw]

theorem npos_succ : add32 (2^32-1) 1 = 0 := by norm_num [add32]

theorem sub32_sub (hlt : start < stop) (hstop : stop < 2^32) : sub32 (sub32 stop start) 1 = stop-start-1 := by
  rw [sub32_of_le hstop hlt.le, sub32_of_le (by omega) (by omega)]

theorem assertFound_lt (hw : w = 32 ∨ w = 64) (hpos : pos < 2^31) : assertFound w pos = .ok () :=
  if_neg (by rcases hw with rfl | rfl <;> omega)

/-- A npos of 64 bits is not met, and one of 32 bits is. -/
theorem assertFound_npos (hw : w = 32 ∨ w = 64) :
    assertFound w (2^32-1) = if w = 32 then .error .fatal else .ok () := by
  rcases hw with rfl | rfl <;> rfl

theorem fileName_between (hlen : line.length < 2^31) {n : ℕ} (hn : start+1+n ≤ line.length) :
    fileName line start (start+1+n) = .ok ((line.drop (start+1)).take n) := by
  rw [fileName, add32_of_lt (by omega), sub32_sub (by omega) (by omega), Str.substr_some (by omega),
    show start+1+n-start-1 = n by omega]

theorem fileName_rest (hlen : line.length < 2^31) (hstart : start < line.length) :
    fileName line start (2^32-1) = .ok (line.drop (start+1)) := by
  rw [fileName, add32_of_lt (by omega), sub32_sub (by omega) (by omega), Str.substr_some (by omega),
    List.take_of_length_le]
  rw [List.length_drop]
  omega

theorem fileName_whole (hlen : line.length < 2^31) : fileName line (2^32-1) (2^32-1) = .ok line := by
  have hn : sub32 (sub32 (2^32-1) (2^32-1)) 1 = 2^32-1 := by norm_num [sub32]
  rw [fileName, npos_succ, hn, Str.substr_some (Nat.zero_le _), List.drop_zero,
    List.take_of_length_le (by omega)]

theorem firstQuoted_append (ha : '"' ∉ a) : firstQuoted (a ++ '"' :: b) = b.takeWhile (· ≠ '"') := by
  rw [firstQuoted, ListCuts.dropWhile_ne_append ha, List.drop_one, List.tail_cons]

/-- From a quote on the name goes to the next one. -/
theorem fileName_quoted (hw : w = 32 ∨ w = 64) (hlen : line.length < 2^31) (hstart : start < line.length) :
    (do
      assertFound w (position w line ['"'] (start+1))
      fileName line start (position w line ['"'] (start+1))) =
      if w = 32 ∧ '"' ∉ line.drop (start+1) then .error .fatal
      else .ok ((line.drop (start+1)).takeWhile (· ≠ '"')) := by
  by_cases hq : '"' ∈ line.drop (start+1)
  · obtain ⟨a,b,hs,ha⟩ := List.eq_append_cons_of_mem hq
    have hlt := congrArg List.length hs
    simp only [List.length_drop, List.length_append, List.length_cons] at hlt
    rw [position_found hlen (by omega) hs ha, assertFound_lt hw (by omega), ok_bind,
      fileName_between hlen (by omega), if_neg (fun h => h.2 hq), hs, List.take_left,
      ListCuts.takeWhile_ne_append ha]
  · rw [position_none hw hq, assertFound_npos hw, fileName_rest hlen hstart, ListCuts.takeWhile_ne_self hq]
    by_cases h32 : w = 32
    · rw [if_pos h32, if_pos ⟨h32,hq⟩, error_bind]
    · rw [if_neg h32, if_neg (fun h => h32 h.1), ok_bind]

/-- A line with a quote. With a npos of 32 bits the quote has to be closed. -/
theorem includeFile_quotes (hw : w = 32 ∨ w = 64) (hlen : line.length < 2^31) (hword : includeWord <+: line)
    (hq : '"' ∈ line) : includeFile w line =
      if w = 32 ∧ ¬2 ≤ line.count '"' then .error .fatal else .ok (firstQuoted line) := by
  obtain ⟨t,rfl⟩ := hword
  have ht : '"' ∈ t := by
    rcases List.mem_append.mp hq with hq | hq
    · exact absurd hq (by decide)
    · exact hq
  -- the word has no quote, so that the first one stands behind it
  obtain ⟨a,b,rfl,ha⟩ := List.eq_append_cons_of_mem ht
  have hfront : '"' ∉ includeWord ++ a := by
    rw [List.mem_append, not_or]
    exact ⟨by decide,ha⟩
  have hstart : position w (includeWord ++ (a ++ '"' :: b)) ['"'] 8 = 8+a.length :=
    position_found hlen (by simp [includeWord]) rfl ha
  have hdrop : (includeWord ++ (a ++ '"' :: b)).drop (8+a.length+1) = b := by
    rw [← List.append_assoc, List.append_cons, List.drop_left' (by simp [includeWord]; omega)]
  have hlt : 8+a.length < (includeWord ++ (a ++ '"' :: b)).length := by
    simp [includeWord]
    omega
  have hcount : 2 ≤ (includeWord ++ (a ++ '"' :: b)).count '"' ↔ '"' ∈ b := by
    rw [← List.append_assoc, List.count_append, List.count_eq_zero_of_not_mem hfront, List.count_cons_self,
      ← List.count_pos_iff]
    omega
  rw [includeFile, hstart, if_neg (by rcases hw with rfl | rfl <;> omega), add32_of_lt (by omega),
    fileName_quoted hw hlen hlt, hdrop]
  refine if_congr (and_congr_right fun _ => not_congr hcount.symm) rfl ?_
  rw [← List.append_assoc, firstQuoted_append hfront]

/-- A wide npos is not met, and the whole line is taken. -/
theorem includeFile_wide (hlen : line.length < 2^31) (hq : '"' ∉ line) : includeFile 64 line = .ok line := by
  have hnone (pos : ℕ) : position 64 line ['"'] pos = 2^32-1 :=
    position_none (.inr rfl) fun hmem => hq (List.mem_of_mem_drop hmem)
  simp only [includeFile, hnone, npos_succ]
  rw [if_neg (by norm_num), assertFound_npos (.inr rfl), if_neg (by norm_num), ok_bind, fileName_whole hlen]

/-- A line that begins with the word has white space behind it, and then the rest. -/
theorem line_eq (hword : includeWord <+: line) :
    ∃ blanks, line = includeWord ++ (blanks ++ target line) ∧ ∀ c ∈ blanks, c = ' ' ∨ c = '\t' := by
  obtain ⟨t,rfl⟩ := hword
  refine ⟨t.takeWhile fun c => c = ' ' ∨ c = '\t',?_,?_⟩
  · rw [target, List.drop_left, List.takeWhile_append_dropWhile]
  · intro c hc
    simpa using List.mem_takeWhile_imp hc

theorem upTo_eq_some (h : upTo c a = some name) : ∃ b, a = name ++ c :: b ∧ c ∉ name := by
  rw [upTo] at h
  split_ifs at h with hc
  obtain ⟨a,b,rfl,ha⟩ := List.eq_append_cons_of_mem hc
  rw [ListCuts.takeWhile_ne_append ha] at h
  obtain rfl := Option.some.inj h
  exact ⟨b,rfl,ha⟩

/-- The two kinds of directives. -/
theorem directive_cases (hd : directive line = some name) : includeWord <+: line ∧
    ((∃ b, target line = '"' :: (name ++ '"' :: b) ∧ '"' ∉ name) ∨
      ∃ b, target line = '<' :: (name ++ '>' :: b) ∧ '>' ∉ name) := by
  unfold directive at hd
  split_ifs at hd with hword
  refine ⟨hword,?_⟩
  split at hd
  · rename_i rest htarget
    obtain ⟨b,rfl,hname⟩ := upTo_eq_some hd
    exact .inl ⟨b,htarget,hname⟩
  · rename_i rest htarget
    obtain ⟨b,rfl,hname⟩ := upTo_eq_some hd
    exact .inr ⟨b,htarget,hname⟩
  · cases hd

theorem mem_of_target (hword : includeWord <+: line) (hc : c ∈ target line) : c ∈ line := by
  obtain ⟨blanks,hline,-⟩ := line_eq hword
  rw [hline]
  simp [hc]

/-- Where npos is met the angle brackets are looked for. -/
theorem includeFile_narrow (hlen : line.length < 2^31) (hq : '"' ∉ line) (hd : directive line = some name) :
    includeFile 32 line = .ok name := by
  obtain ⟨hword,⟨b,htarget,-⟩ | ⟨b,htarget,hname⟩⟩ := directive_cases hd
  · exact absurd (mem_of_target hword (by rw [htarget]; exact List.mem_cons_self)) hq
  · obtain ⟨blanks,hline,hblank⟩ := line_eq hword
    have hnone : position 32 line ['"'] 8 = 2^32-1 :=
      position_none (.inl rfl) fun hmem => hq (List.mem_of_mem_drop hmem)
    rw [htarget] at hline
    have hcount := congrArg List.length hline
    simp only [List.length_append, List.length_cons, includeWord, List.length_nil] at hcount
    have hdrop : line.drop 8 = blanks ++ '<' :: (name ++ '>' :: b) := by
      rw [hline]
      exact List.drop_left' rfl
    have hdrop' : line.drop (8+blanks.length+1) = name ++ '>' :: b := by
      rw [Nat.add_assoc, ← List.drop_drop, hdrop, List.append_cons, List.drop_left' (by simp)]
    have hopen : position 32 line ['<'] 8 = 8+blanks.length := by
      apply position_found hlen (by omega) hdrop
      intro hmem
      rcases hblank '<' hmem with h | h <;> exact absurd h (by decide)
    have hclose : position 32 line ['>'] (8+blanks.length+1) = 8+blanks.length+1+name.length :=
      position_found hlen (by omega) hdrop' hname
    simp only [includeFile, hnone, if_true, hopen, add32_of_lt (show 8+blanks.length+1 < 2^32 by omega), hclose]
    rw [assertFound_lt (.inl rfl) (by omega), ok_bind, assertFound_lt (.inl rfl) (by omega), ok_bind,
      fileName_between hlen (by omega), hdrop', List.take_left]

/-- Which directives are read right. -/
theorem includeFile_iff (hw : w = 32 ∨ w = 64) (hlen : line.length < 2^31) (hd : directive line = some name) :
    includeFile w line = .ok name ↔ ((target line).head? = some '<' → AngleRead w line name) := by
  obtain ⟨hword,hkind⟩ := directive_cases hd
  obtain ⟨blanks,hline,hblank⟩ := line_eq hword
  by_cases hq : '"' ∈ line
  · have hread : includeFile w line = .ok name ↔ firstQuoted line = name ∧ (w = 32 → 2 ≤ line.count '"') := by
      rw [includeFile_quotes hw hlen hword hq]
      split
      · rename_i hopen
        exact iff_of_false nofun fun h => hopen.2 (h.2 hopen.1)
      · rename_i hclosed
        rw [Except.ok.injEq, and_iff_left fun h32 => not_not.mp fun hno => hclosed ⟨h32,hno⟩]
    rw [hread]
    rcases hkind with ⟨b,htarget,hname⟩ | ⟨b,htarget,-⟩
    · -- the first quote is the one in front of the name
      have hfront : '"' ∉ includeWord ++ blanks := by
        rw [List.mem_append, not_or]
        refine ⟨by decide,fun hmem => ?_⟩
        rcases hblank '"' hmem with h | h <;> exact absurd h (by decide)
      have hfirst : firstQuoted line = name := by
        rw [hline, htarget, ← List.append_assoc, firstQuoted_append hfront,
          ListCuts.takeWhile_ne_append hname]
      have hcount : 2 ≤ line.count '"' := by
        rw [hline, htarget]
        simp only [List.count_append, List.count_cons_self]
        omega
      refine iff_of_true ⟨hfirst,fun _ => hcount⟩ ?_
      rw [htarget]
      intro hhead
      cases hhead
    · rw [htarget]
      simp [AngleRead, hq]
  · rcases hkind with ⟨b,htarget,-⟩ | ⟨b,htarget,-⟩
    · exact absurd (mem_of_target hword (by rw [htarget]; exact List.mem_cons_self)) hq
    · rcases hw with rfl | rfl
      · exact iff_of_true (includeFile_narrow hlen hq hd) fun _ => .inl ⟨hq,rfl⟩
      · -- the whole line is longer than the name in it
        rw [includeFile_wide hlen hq, Except.ok.injEq, htarget]
        refine iff_of_false ?_ ?_
        · intro hsame
          have hcount := congrArg List.length hline
          rw [htarget, hsame] at hcount
          simp only [List.length_append, List.length_cons] at hcount
          omega
        · simp [AngleRead, hq]

end Names

/-- What is taken from the lines of a text that the scan comes to in a state. -/
def found (w : ℕ) : Str → ℕ → List (Exec Str)
  | [], _ => []
  | c :: rest, state =>
    if c = '\n' then found w rest 1
    else if c = '#' then
      (if state = 1 ∧ includeWord <+: c :: rest then [includeFile w ((c :: rest).takeWhile (· ≠ '\n'))]
        else []) ++ found w rest state
    else found w rest 0

/-- The names are put behind those that are there, up to one that could not be taken. -/
def collect (included : List Str) : List (Exec Str) → Exec (List Str)
  | [] => .ok included
  | file :: files => do
    let name ← file
    collect (included ++ [name]) files

/-- Each '#' that the scan meets in state 1 has seven bytes behind it. -/
def Roomy : Str → ℕ → Prop
  | [], _ => True
  | c :: rest, state =>
    if c = '\n' then Roomy rest 1
    else if c = '#' then (state = 1 → 7 ≤ rest.length) ∧ Roomy rest state
    else Roomy rest 0

section Scans
variable {w n fuel state : ℕ} {data : Str} {included : List Str}

theorem collect_append (included : List Str) (a b : List (Exec Str)) : collect included (a ++ b) = (do
    let included ← collect included a
    collect included b) := by
  induction a generalizing included with
  | nil => rfl
  | cons file a ih =>
    rw [List.cons_append, collect, collect]
    cases file with
    | error e => rfl
    | ok name =>
      rw [ok_bind, ok_bind]
      exact ih _

/-- All of the names are taken, or the scan does not return. -/
theorem collect_iff {files : List (Exec Str)} {r : List Str} :
    collect included files = .ok r ↔ ∃ names, files = names.map .ok ∧ r = included ++ names := by
  induction files generalizing included with
  | nil =>
    rw [collect, Except.ok.injEq]
    constructor
    · rintro rfl
      exact ⟨[],rfl,(List.append_nil _).symm⟩
    · rintro ⟨names,hnames,rfl⟩
      obtain rfl := List.map_eq_nil_iff.mp hnames.symm
      exact (List.append_nil _).symm
  | cons file files ih =>
    rw [collect]
    cases file with
    | error e =>
      rw [error_bind]
      refine iff_of_false nofun ?_
      rintro ⟨_ | ⟨name,names⟩,hnames,-⟩
      · cases hnames
      · cases hnames
    | ok name =>
      rw [ok_bind, ih]
      constructor
      · rintro ⟨names,rfl,rfl⟩
        exact ⟨name :: names,rfl,List.append_assoc ..⟩
      · rintro ⟨_ | ⟨name',names⟩,hnames,rfl⟩
        · cases hnames
        · obtain ⟨hname,rfl⟩ := List.cons.inj hnames
          obtain rfl := Except.ok.inj hname
          exact ⟨names,rfl,by rw [List.append_assoc, List.singleton_append]⟩

theorem byteAt_eq {c : Char} {rest : Str} (hdrop : data.drop n = c :: rest) : byteAt data n = .ok c := by
  have hget : data[n]? = some c := by
    rw [← List.head?_drop, hdrop]
    rfl
  rw [byteAt, if_neg (by omega), Int.toNat_natCast, hget]

theorem toInt32_cast (hn : n < 2^31) : toInt32 (n : ℤ) = n := toInt32_eq (by omega) (by omega)

theorem toInt32_past (hn : 2^31 ≤ n) (hlt : n < 2^32) : toInt32 (n : ℤ) < 0 := by
  unfold toInt32 Int.bmod
  simp only
  split <;> omega

theorem lt_of_drop {c : Char} {rest : Str} (hdrop : data.drop n = c :: rest) : n < data.length := by
  by_contra hge
  rw [List.drop_eq_nil_of_le (not_lt.mp hge)] at hdrop
  cases hdrop

theorem drop_succ {c : Char} {rest : Str} (hdrop : data.drop n = c :: rest) : data.drop (n+1) = rest := by
  rw [← List.drop_drop, hdrop]
  rfl

theorem lineEnd_eq (hsmall : data.length < 2^31) (hfuel : data.length-n ≤ fuel) :
    lineEnd data fuel n = .ok (n+((data.drop n).takeWhile (· ≠ '\n')).length : ℕ) := by
  induction fuel generalizing n with
  | zero =>
    rw [lineEnd, if_neg (by omega), List.drop_eq_nil_of_le (by omega)]
    rfl
  | succ fuel ih =>
    cases hdrop : data.drop n with
    | nil =>
      have hle := List.drop_eq_nil_iff.mp hdrop
      rw [lineEnd, if_neg (by omega)]
      rfl
    | cons c rest =>
      have hlt := lt_of_drop hdrop
      rw [lineEnd, if_pos (by omega)]
      simp only [byteAt_eq hdrop, ok_bind]
      by_cases hc : c = '\n'
      · rw [if_pos hc, List.takeWhile_cons_of_neg (by simp [hc])]
        rfl
      · rw [if_neg hc, ← Nat.cast_succ, toInt32_cast (by omega), ih (by omega), drop_succ hdrop,
          List.takeWhile_cons_of_pos (by simp [hc]), List.length_cons]
        congr 2
        omega

theorem find_word {line : Str} : line.find includeWord 0 = some 0 ↔ includeWord <+: line :=
  ⟨fun h => Str.prefix_of_find h,fun h => Str.find_prefix (Nat.zero_le _) h⟩

/-- With eight bytes left the line is read up to its end, if the word stands there. -/
theorem addInclude_ok (hsmall : data.length < 2^31) (hroom : n+8 ≤ data.length)
    (included : List Str) : addInclude w data n included = collect included
      (if includeWord <+: data.drop n then [includeFile w ((data.drop n).takeWhile (· ≠ '\n'))] else []) := by
  have hj : toInt32 ((n : ℤ)+8) = (n+8 : ℕ) := by
    rw [← Nat.cast_ofNat (R := ℤ), ← Nat.cast_add, toInt32_cast (by omega)]
  have hend := lineEnd_eq hsmall (show data.length-(n+8) ≤ data.length+1 by omega)
  have hm := (List.takeWhile_prefix (l := data.drop (n+8)) (· ≠ '\n')).length_le
  rw [List.length_drop] at hm
  generalize hlen : ((data.drop (n+8)).takeWhile (· ≠ '\n')).length = m at *
  have hbytes : bytes data n ((n+8+m : ℕ)-n) = .ok ((data.drop n).take (8+m)) := by
    rw [bytes, if_pos (by omega), Int.toNat_natCast, show (((n+8+m : ℕ) : ℤ)-n).toNat = 8+m by omega]
  simp only [addInclude, hj, hend, ok_bind, hbytes, find_word, List.prefix_take_iff]
  by_cases hword : includeWord <+: data.drop n
  · -- what is cut off is the line: there is no newline in the word
    have hline : (data.drop n).take (8+m) = (data.drop n).takeWhile (· ≠ '\n') := by
      obtain ⟨t,ht⟩ := hword
      have htail : data.drop (n+8) = t := by
        rw [← List.drop_drop, ← ht]
        exact List.drop_left' rfl
      rw [htail] at hlen
      have htake : t.takeWhile (· ≠ '\n') = t.take m := by
        rw [← hlen]
        exact List.prefix_iff_eq_take.mp (List.takeWhile_prefix _)
      have hplain : '\n' ∉ includeWord := by decide
      rw [← ht, List.takeWhile_append_of_pos (ListCuts.all_ne hplain), htake]
      show (includeWord ++ t).take (includeWord.length+m) = includeWord ++ t.take m
      exact List.take_length_add_append m
    rw [if_pos ⟨hword,by simp [includeWord]⟩, if_pos hword, hline]
    rfl
  · rw [if_neg (fun h => hword h.1), if_neg hword]
    rfl

/-- With less than that, what is read is not in the file. -/
theorem addInclude_error (hsmall : data.length < 2^31) (hn : n < data.length) (hroom : data.length < n+8)
    (included : List Str) : ∃ e, addInclude w data n included = .error e := by
  by_cases hint : n+8 < 2^31
  · have hj : toInt32 ((n : ℤ)+8) = (n+8 : ℕ) := by
      rw [← Nat.cast_ofNat (R := ℤ), ← Nat.cast_add, toInt32_cast hint]
    have hend := lineEnd_eq hsmall (show data.length-(n+8) ≤ data.length+1 by omega)
    rw [List.drop_eq_nil_of_le (by omega)] at hend
    -- the loop ends at once, and the string is built beyond the end
    have hbytes : bytes data n ((n+8+0 : ℕ)-n) = .error .outOfBounds := by
      rw [bytes, if_neg (by omega)]
    refine ⟨.outOfBounds,?_⟩
    simp only [addInclude, hj, hend, List.takeWhile_nil, List.length_nil, ok_bind, hbytes, error_bind]
  · -- i + 8 is no int, and the loop starts at a negative index
    have hj := toInt32_past (n := n+8) (by omega) (by omega)
    rw [Nat.cast_add, Nat.cast_ofNat] at hj
    have hend : lineEnd data (data.length+1) (toInt32 ((n : ℤ)+8)) = .error .outOfBounds := by
      rw [lineEnd, if_pos (by omega)]
      simp only [byteAt, if_pos hj, error_bind]
    refine ⟨.outOfBounds,?_⟩
    simp only [addInclude, hend, error_bind]

theorem hash_cases (hsmall : data.length < 2^31) {rest : Str}
    (hdrop : data.drop n = '#' :: rest) (state : ℕ) (included : List Str) :
    ((state = 1 → 7 ≤ rest.length) → hash w data n state included = collect included
        (if state = 1 ∧ includeWord <+: '#' :: rest then [includeFile w (('#' :: rest).takeWhile (· ≠ '\n'))]
        else [])) ∧
      (¬(state = 1 → 7 ≤ rest.length) → ∃ e, hash w data n state included = .error e) := by
  have hlt := lt_of_drop hdrop
  have hlen := congrArg List.length hdrop
  rw [List.length_drop, List.length_cons] at hlen
  unfold hash
  by_cases hstate : state = 1
  · rw [if_pos hstate]
    refine ⟨fun hroom => ?_,fun hroom => addInclude_error hsmall hlt ?_ included⟩
    · have hroom := hroom hstate
      rw [addInclude_ok hsmall (by omega), hdrop]
      simp only [hstate, true_and]
    · have := Classical.not_imp.mp hroom
      omega
  · rw [if_neg hstate, if_neg (fun h => hstate h.1)]
    exact ⟨fun _ => rfl,fun h => absurd (fun hs => absurd hs hstate) h⟩

/-- On a file that an int can index, the scan collects what is found, or meets a '#' without room. -/
theorem scan_cases (hsmall : data.length < 2^31) (hfuel : data.length-n ≤ fuel)
    (state : ℕ) (included : List Str) :
    (Roomy (data.drop n) state → scan w data fuel n state included =
        collect included (found w (data.drop n) state)) ∧
      (¬Roomy (data.drop n) state → ∃ e, scan w data fuel n state included = .error e) := by
  -- on the fuel, of which each byte takes one; the state and the list go along
  induction fuel generalizing n state included with
  | zero =>
    rw [scan, if_neg (by omega), List.drop_eq_nil_of_le (by omega)]
    exact ⟨fun _ => rfl,fun h => absurd trivial h⟩
  | succ fuel ih =>
    cases hdrop : data.drop n with
    | nil =>
      have hle := List.drop_eq_nil_iff.mp hdrop
      rw [scan, if_neg (by omega)]
      exact ⟨fun _ => rfl,fun h => absurd trivial h⟩
    | cons c rest =>
      have hlt := lt_of_drop hdrop
      have hnext : toInt32 ((n : ℤ)+1) = (n+1 : ℕ) := by
        rw [← Nat.cast_succ, toInt32_cast (by omega)]
      have ih := @ih (n+1) (by omega)
      rw [drop_succ hdrop] at ih
      rw [scan, if_pos (by omega)]
      simp only [byteAt_eq hdrop, ok_bind, hnext]
      rw [found, Roomy]
      by_cases hline : c = '\n'
      · simp only [if_pos hline]
        exact ih 1 included
      · by_cases hhash : c = '#'
        · subst hhash
          simp only [if_neg hline, if_true]
          obtain ⟨hok,herror⟩ := hash_cases (w := w) hsmall hdrop state included
          constructor
          · rintro ⟨hroom,hrest⟩
            rw [hok hroom, collect_append]
            exact bind_congr fun included => (ih state included).1 hrest
          · intro hno
            by_cases hroom : state = 1 → 7 ≤ rest.length
            · rw [hok hroom]
              cases collect included _ with
              | error e => exact ⟨e,rfl⟩
              | ok included =>
                rw [ok_bind]
                exact (ih state included).2 fun hrest => hno ⟨hroom,hrest⟩
            · obtain ⟨e,he⟩ := herror hroom
              rw [he]
              exact ⟨e,rfl⟩
        · simp only [if_neg hline, if_neg hhash]
          exact ih 0 included

/-- An int that counts beyond its range comes back below the file. -/
theorem scan_large (hlarge : 2^31 ≤ data.length) (hn : n ≤ 2^31) {r : List Str} :
    scan w data fuel (toInt32 n) state included ≠ .ok r := by
  -- on the fuel: i goes up to 2^31-1, and its next value is negative
  induction fuel generalizing n state included with
  | zero =>
    intro hscan
    have hle := toInt32_le (n := (n : ℤ)) (by omega)
    rw [scan] at hscan
    split_ifs at hscan with hgoes
    rcases Nat.lt_or_eq_of_le hn with hlt | rfl
    · rw [toInt32_cast hlt] at hgoes
      omega
    · have hneg := toInt32_past (n := 2^31) le_rfl (by norm_num)
      omega
  | succ fuel ih =>
    intro hscan
    have hle := toInt32_le (n := (n : ℤ)) (by omega)
    rcases Nat.lt_or_eq_of_le hn with hlt | rfl
    · rw [toInt32_cast hlt, scan, if_pos (by omega)] at hscan
      obtain ⟨c,-,hrest⟩ := bind_eq_ok.mp hscan
      rw [← Nat.cast_succ] at hrest
      split_ifs at hrest with hline hhash
      · exact ih hlt hrest
      · obtain ⟨included',-,hrest⟩ := bind_eq_ok.mp hrest
        exact ih hlt hrest
      · exact ih hlt hrest
    · have hneg := toInt32_past (n := 2^31) le_rfl (by norm_num)
      rw [scan, if_pos (by omega)] at hscan
      simp only [byteAt, if_pos hneg, error_bind] at hscan
      cases hscan

/-- The scan returns what is found if it has room, and does not return otherwise. -/
theorem findIncludes_iff {r : List Str} : findIncludes w data included = .ok r ↔
    data.length < 2^31 ∧ Roomy data 1 ∧ ∃ names, found w data 1 = names.map .ok ∧ r = included ++ names := by
  by_cases hsmall : data.length < 2^31
  · obtain ⟨hok,herror⟩ := scan_cases (w := w) hsmall (show data.length-0 ≤ data.length+1 by omega) 1 included
    rw [List.drop_zero, Nat.cast_zero] at hok herror
    by_cases hroom : Roomy data 1
    · rw [findIncludes, hok hroom, collect_iff]
      exact ⟨fun h => ⟨hsmall,hroom,h⟩,fun h => h.2.2⟩
    · obtain ⟨e,he⟩ := herror hroom
      rw [findIncludes, he]
      simp [hroom]
  · refine iff_of_false ?_ fun h => hsmall h.1
    have hzero := toInt32_cast (n := 0) (by norm_num)
    rw [findIncludes, ← Nat.cast_zero (R := ℤ), ← hzero]
    exact scan_large (not_lt.mp hsmall) (Nat.zero_le _)

end Scans

section Rooms
variable {a b pre hashes post rest data : Str} {state : ℕ}

/-- The state behind a text. -/
def after : Str → ℕ → ℕ
  | [], state => state
  | c :: rest, state => if c = '\n' then after rest 1 else if c = '#' then after rest state else after rest 0

theorem after_append : after (a ++ b) state = after b (after a state) := by
  induction a generalizing state with
  | nil => rfl
  | cons c a ih =>
    rw [List.cons_append, after, after]
    split_ifs <;> exact ih

theorem after_hashes (hh : ∀ c ∈ hashes, c = '#') : after hashes state = state := by
  induction hashes with
  | nil => rfl
  | cons c hashes ih =>
    obtain ⟨rfl,hrest⟩ := List.forall_mem_cons.mp hh
    rw [after, if_neg (by decide), if_pos rfl, ih hrest]

theorem after_start (hpre : ∀ c ∈ pre.getLast?, c = '\n') : after pre 1 = 1 := by
  rcases List.eq_nil_or_concat' pre with rfl | ⟨pre,c,rfl⟩
  · rfl
  · obtain rfl := hpre c (by simp)
    rw [after_append]
    rfl

/-- In state 1 there is nothing but '#' since the line began. -/
theorem start_of_after (h : after a 1 = 1) :
    ∃ pre hashes, a = pre ++ hashes ∧ (∀ c ∈ pre.getLast?, c = '\n') ∧ ∀ c ∈ hashes, c = '#' := by
  induction a using List.reverseRecOn with
  | nil => exact ⟨[],[],rfl,by simp,by simp⟩
  | append_singleton a c ih =>
    rw [after_append, after, after] at h
    split_ifs at h with hline hhash
    · exact ⟨a ++ [c],[],by simp,by simpa using hline,by simp⟩
    · obtain ⟨pre,hashes,rfl,hpre,hh⟩ := ih h
      refine ⟨pre,hashes ++ [c],by simp,hpre,?_⟩
      intro d hd
      rcases List.mem_append.mp hd with hd | hd
      · exact hh d hd
      · rw [List.mem_singleton.mp hd, hhash]
    · cases h

theorem roomy_append : Roomy (a ++ b) state → Roomy b (after a state) := by
  induction a generalizing state with
  | nil => exact id
  | cons c a ih =>
    rw [List.cons_append, Roomy, after]
    split_ifs
    · exact ih
    · exact fun h => ih h.2
    · exact ih

/-- There is room when each '#' that is met in state 1 has it. -/
theorem roomy_of_rooms (h : ∀ b post, rest = b ++ '#' :: post → after b state = 1 → 7 ≤ post.length) :
    Roomy rest state := by
  induction rest generalizing state with
  | nil => trivial
  | cons c rest ih =>
    have hrest : ∀ b post, rest = b ++ '#' :: post → after (c :: b) state = 1 → 7 ≤ post.length :=
      fun b post hb => h (c :: b) post (by rw [hb]; rfl)
    rw [Roomy]
    by_cases hline : c = '\n'
    · simp only [after, if_pos hline] at hrest
      rw [if_pos hline]
      exact ih hrest
    · by_cases hhash : c = '#'
      · simp only [after, if_neg hline, if_pos hhash] at hrest
        rw [if_neg hline, if_pos hhash]
        exact ⟨fun hstate => h [] rest (by rw [hhash]; rfl) hstate,ih hrest⟩
      · simp only [after, if_neg hline, if_neg hhash] at hrest
        rw [if_neg hline, if_neg hhash]
        exact ih hrest

theorem roomy_iff : Roomy data 1 ↔ ∀ pre hashes post, data = pre ++ (hashes ++ '#' :: post) →
    (∀ c ∈ pre.getLast?, c = '\n') → (∀ c ∈ hashes, c = '#') → 7 ≤ post.length := by
  constructor
  · rintro hroom pre hashes post rfl hpre hh
    have h := roomy_append (roomy_append hroom)
    rw [after_start hpre, after_hashes hh, Roomy, if_neg (by decide), if_pos rfl] at h
    exact h.1 rfl
  · intro h
    apply roomy_of_rooms
    rintro b post rfl hafter
    obtain ⟨pre,hashes,rfl,hpre,hh⟩ := start_of_after hafter
    exact h pre hashes post (by rw [List.append_assoc]) hpre hh

end Rooms

section Lines
variable {w state : ℕ} {a line rest data : Str} {name : Str}

theorem word_append : includeWord <+: a ++ '\n' :: rest ↔ includeWord <+: a := by
  refine ⟨fun h => ?_,fun h => h.trans (List.prefix_append _ _)⟩
  rcases Nat.lt_or_ge a.length includeWord.length with hlt | hge
  · -- the newline would be one of the word
    have hfront : a ++ ['\n'] <+: a ++ '\n' :: rest := ⟨rest,by simp⟩
    have hprefix : a ++ ['\n'] <+: includeWord :=
      List.prefix_of_prefix_length_le hfront h (by simpa using hlt)
    have hmem : '\n' ∈ includeWord := hprefix.subset (by simp)
    exact absurd hmem (by decide)
  · exact List.prefix_of_prefix_length_le h (List.prefix_append _ _) hge

/-- A line is scanned by itself. -/
theorem found_line (hline : '\n' ∉ a) : found w (a ++ '\n' :: rest) state = found w a state ++ found w rest 1 := by
  induction a generalizing state with
  | nil => rfl
  | cons c a ih =>
    have hc : c ≠ '\n' := fun h => hline (h ▸ List.mem_cons_self)
    have ha : '\n' ∉ a := List.not_mem_of_not_mem_cons hline
    have hword : includeWord <+: c :: (a ++ '\n' :: rest) ↔ includeWord <+: c :: a :=
      word_append (a := c :: a)
    have htake : (c :: (a ++ '\n' :: rest)).takeWhile (· ≠ '\n') = (c :: a).takeWhile (· ≠ '\n') := by
      rw [← List.cons_append, ListCuts.takeWhile_ne_append hline, ListCuts.takeWhile_ne_self hline]
    rw [List.cons_append, found, found, if_neg hc, if_neg hc]
    by_cases hhash : c = '#'
    · simp only [if_pos hhash, hword, htake, ih ha, List.append_assoc]
    · rw [if_neg hhash, if_neg hhash, ih ha]

/-- A text is one line, or a line and what stands behind its newline. -/
theorem lines_cases (data : Str) : ('\n' ∉ data ∧ lines data = [data]) ∨
    ∃ line rest, data = line ++ '\n' :: rest ∧ '\n' ∉ line ∧ lines data = line :: lines rest := by
  by_cases hline : '\n' ∈ data
  · obtain ⟨line,rest,rfl,hnone⟩ := List.eq_append_cons_of_mem hline
    exact .inr ⟨line,rest,rfl,hnone,List.splitOn_append_cons_self_of_not_mem hnone rest⟩
  · exact .inl ⟨hline,List.splitOn_eq_singleton hline⟩

/-- What is found in a text is found in its lines. -/
theorem found_lines (data : Str) : found w data 1 = (lines data).flatMap fun line => found w line 1 := by
  -- on the length, since what is left behind a line is no part of the list
  induction hlen : data.length using Nat.strong_induction_on generalizing data with
  | _ m ih =>
    rcases lines_cases data with ⟨-,hlines⟩ | ⟨line,rest,rfl,hnone,hlines⟩
    · rw [hlines]
      simp
    · rw [hlines, List.flatMap_cons, found_line hnone, ih rest.length (by simp [← hlen]; omega) rest rfl]

theorem mem_lines (hmem : line ∈ lines data) : '\n' ∉ line ∧ line.length ≤ data.length := by
  induction hlen : data.length using Nat.strong_induction_on generalizing data with
  | _ m ih =>
    rcases lines_cases data with ⟨hnone,hlines⟩ | ⟨first,rest,rfl,hnone,hlines⟩
    · rw [hlines, List.mem_singleton] at hmem
      exact ⟨hmem ▸ hnone,by rw [hmem, hlen]⟩
    · rw [List.length_append, List.length_cons] at hlen
      rw [hlines] at hmem
      rcases List.mem_cons.mp hmem with rfl | hmem
      · exact ⟨hnone,by omega⟩
      · obtain ⟨hline,hle⟩ := ih rest.length (by omega) hmem rfl
        exact ⟨hline,by omega⟩

theorem found_zero (hline : '\n' ∉ a) : found w a 0 = [] := by
  induction a with
  | nil => rfl
  | cons c a ih =>
    have hc : c ≠ '\n' := fun h => hline (h ▸ List.mem_cons_self)
    have ha := ih (List.not_mem_of_not_mem_cons hline)
    rw [found, if_neg hc]
    split_ifs with hhash hword
    · exact absurd hword.1 (by decide)
    · exact ha
    · exact ha

theorem found_word (hline : '\n' ∉ line) (hword : includeWord <+: line) :
    found w line 1 = [includeFile w line] := by
  have htake := ListCuts.takeWhile_ne_self hline
  obtain ⟨t,rfl⟩ := hword
  have ht : '\n' ∉ t := fun h => hline (List.mem_append_right _ h)
  have hrest : found w (['n','c','l','u','d','e'] ++ t) 0 = [] := by
    apply found_zero
    rw [List.mem_append, not_or]
    exact ⟨by decide,ht⟩
  have hsplit : includeWord ++ t = '#' :: 'i' :: (['n','c','l','u','d','e'] ++ t) := rfl
  rw [hsplit] at htake ⊢
  rw [found, if_neg (by decide), if_pos rfl, if_pos ⟨rfl,t,hsplit⟩, htake, found, if_neg (by decide),
    if_neg (by decide), hrest]
  rfl

/-- Nothing is found in a line in which no '#' of the first ones begins the word. -/
theorem found_eq_nil (hline : '\n' ∉ line) : found w line 1 = [] ↔
    ∀ hashes rest, line = hashes ++ rest → (∀ c ∈ hashes, c = '#') → ¬includeWord <+: rest := by
  induction line with
  | nil =>
    refine iff_of_true rfl ?_
    intro hashes rest hnil _ hword
    obtain ⟨-,rfl⟩ := List.append_eq_nil_iff.mp hnil.symm
    exact absurd hword (by decide)
  | cons c a ih =>
    have hc : c ≠ '\n' := fun h => hline (h ▸ List.mem_cons_self)
    have ha : '\n' ∉ a := List.not_mem_of_not_mem_cons hline
    rw [found, if_neg hc]
    by_cases hhash : c = '#'
    · subst hhash
      simp only [if_true, true_and, List.append_eq_nil_iff, ih ha]
      constructor
      · -- the word begins behind this sign, or behind a later one
        rintro ⟨hfirst,hrest⟩ hashes rest hsplit hh hword
        cases hashes with
        | nil =>
          rw [List.nil_append] at hsplit
          rw [← hsplit] at hword
          rw [if_pos hword] at hfirst
          cases hfirst
        | cons d hashes =>
          obtain ⟨-,rfl⟩ := List.cons.inj hsplit
          exact hrest hashes rest rfl (List.forall_mem_cons.mp hh).2 hword
      · intro h
        refine ⟨if_neg (h [] _ rfl (by simp)),?_⟩
        rintro hashes rest rfl hh
        exact h ('#' :: hashes) rest rfl (List.forall_mem_cons.mpr ⟨rfl,hh⟩)
    · -- the first other character ends the search, whatever follows
      rw [if_neg hhash, found_zero ha]
      refine iff_of_true rfl ?_
      intro hashes rest hsplit hh hword
      cases hashes with
      | nil =>
        obtain ⟨t,rfl⟩ := hword
        exact hhash (List.cons.inj hsplit).1
      | cons d hashes =>
        obtain ⟨rfl,-⟩ := List.cons.inj hsplit
        exact hhash (hh c List.mem_cons_self)

/-- A line that begins with the word has no other '#' in front of one. -/
theorem single_of_word (hword : includeWord <+: line) {hashes : Str} (hline : line = hashes ++ rest)
    (hne : hashes ≠ []) (hh : ∀ c ∈ hashes, c = '#') : ¬includeWord <+: rest := by
  rintro ⟨u,rfl⟩
  obtain ⟨t,rfl⟩ := hword
  obtain ⟨c,hashes,rfl⟩ := List.exists_cons_of_ne_nil hne
  have htail := (List.cons.inj hline).2
  -- the second character is an i, and not a '#'
  cases hashes with
  | nil => exact absurd (List.cons.inj htail).1 (by decide)
  | cons d hashes =>
    have hd := hh d (by simp)
    rw [← (List.cons.inj htail).1] at hd
    exact absurd hd (by decide)

theorem found_iff (hw : w = 32 ∨ w = 64) (hlen : line.length < 2^31) (hline : '\n' ∉ line)
    (hd : includeWord <+: line → (directive line).isSome) :
    found w line 1 = (directive line).toList.map .ok ↔
      (∀ hashes rest, line = hashes ++ rest → hashes ≠ [] → (∀ c ∈ hashes, c = '#') → ¬includeWord <+: rest) ∧
        ∀ name, directive line = some name → (target line).head? = some '<' → AngleRead w line name := by
  -- a line that begins with the word is a directive, and any other one must give nothing
  by_cases hword : includeWord <+: line
  · obtain ⟨name,hname⟩ := Option.isSome_iff_exists.mp (hd hword)
    rw [found_word hline hword, hname, Option.toList_some, List.map_singleton, List.cons.injEq,
      and_iff_left rfl, includeFile_iff hw hlen hname]
    constructor
    · intro hread
      refine ⟨fun hashes rest hsplit hne hh => single_of_word hword hsplit hne hh,?_⟩
      rintro _ ⟨⟩
      exact hread
    · exact fun h => h.2 name rfl
  · have hnone : directive line = none := if_neg hword
    rw [hnone, Option.toList_none, List.map_nil, found_eq_nil hline]
    constructor
    · exact fun h => ⟨fun hashes rest hsplit _ hh => h hashes rest hsplit hh,fun name hname => by cases hname⟩
    · rintro ⟨h,-⟩ hashes rest hsplit hh
      by_cases hne : hashes = []
      · rw [hne, List.nil_append] at hsplit
        exact hsplit ▸ hword
      · exact h hashes rest hsplit hne hh

/-- Lists put together from parts that are never the shorter ones are equal part by part. -/
theorem flatMap_eq_iff {α β : Type*} {f g : α → List β} {l : List α} (h : ∀ a ∈ l, (g a).length ≤ (f a).length) :
    l.flatMap f = l.flatMap g ↔ ∀ a ∈ l, f a = g a := by
  induction l with
  | nil => simp
  | cons a l ih =>
    obtain ⟨ha,hl⟩ := List.forall_mem_cons.mp h
    rw [List.flatMap_cons, List.flatMap_cons, List.forall_mem_cons, ← ih hl]
    constructor
    · intro heq
      -- the rest of the one side is not shorter, and so the first parts have one length
      have hle : (l.flatMap g).length ≤ (l.flatMap f).length := by
        rw [List.length_flatMap, List.length_flatMap]
        exact List.sum_le_sum fun b hb => hl b hb
      have hcount := congrArg List.length heq
      rw [List.length_append, List.length_append] at hcount
      exact List.append_inj heq (by omega)
    · rintro ⟨hfirst,hrest⟩
      rw [hfirst, hrest]

end Lines

/-- The scan stays inside a file with well-formed directives and collects their names, in order, when the
file is one that is read right, and only then. -/
theorem findIncludes_reads_iff {w : ℕ} (hw : w = 32 ∨ w = 64) {data : Str} (hd : WellFormed data)
    (included : List Str) :
    findIncludes w data included = .ok (included ++ directives data) ↔ ReadRight w data := by
  have hnames : (directives data).map .ok =
      (lines data).flatMap fun line => ((directive line).toList.map .ok : List (Exec Str)) := by
    rw [directives, List.filterMap_eq_flatMap_toList, List.map_flatMap]
  have hlonger : ∀ line ∈ lines data,
      ((directive line).toList.map .ok : List (Exec Str)).length ≤ (found w line 1).length := by
    intro line hline
    by_cases hword : includeWord <+: line
    · rw [found_word (mem_lines hline).1 hword]
      cases directive line <;> simp
    · rw [show directive line = none from if_neg hword]
      exact Nat.zero_le _
  have hfound : (∃ names, found w data 1 = names.map .ok ∧ included ++ directives data = included ++ names) ↔
      found w data 1 = (directives data).map .ok := by
    simp only [List.append_cancel_left_eq, eq_comm (a := directives data), exists_eq_right]
  rw [findIncludes_iff, hfound, roomy_iff, found_lines, hnames, flatMap_eq_iff hlonger]
  constructor
  · rintro ⟨hsmall,hroom,hlines⟩
    have hread (line : Str) (hline : line ∈ lines data) := (found_iff hw
      ((mem_lines hline).2.trans_lt hsmall) (mem_lines hline).1 (hd line hline)).mp (hlines line hline)
    exact ⟨hsmall,hroom,fun line hline => (hread line hline).1,fun line hline => (hread line hline).2⟩
  · rintro ⟨hsmall,hroom,hsingle,hquoted⟩
    refine ⟨hsmall,hroom,?_⟩
    intro line hline
    exact (found_iff hw ((mem_lines hline).2.trans_lt hsmall) (mem_lines hline).1 (hd line hline)).mpr
      ⟨hsingle line hline,hquoted line hline⟩

/-- One directive, in quotes. -/
def quotedFile : Str := includeWord ++ [' ','"','a','.','h','"','\n']

theorem findIncludes_reads_quoted :
    findIncludes 64 quotedFile [] = .ok ([] ++ directives quotedFile) ↔ ReadRight 64 quotedFile :=
  findIncludes_reads_iff (.inr rfl) (by decide) []

/-- One directive, in angle brackets. -/
def angledFile : Str := includeWord ++ [' ','<','a','.','h','>','\n']

/-- A '#' at the end of a file is read beyond it, a second '#' makes a directive of a line that is none, and
with a wide npos a directive in angle brackets is collected as a whole. -/
theorem findIncludes_misreads :
    (WellFormed ['#'] ∧ findIncludes 64 ['#'] [] ≠ .ok (directives ['#'])) ∧
    (WellFormed ('#' :: quotedFile) ∧
      findIncludes 64 ('#' :: quotedFile) [] ≠ .ok (directives ('#' :: quotedFile))) ∧
    WellFormed angledFile ∧ findIncludes 64 angledFile [] ≠ .ok (directives angledFile) := by
  decide +kernel

end IncludeScan

end JhCommon
