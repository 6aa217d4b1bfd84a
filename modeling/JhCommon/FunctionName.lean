import JhCommon.BracketNesting
import JhCommon.LogBuffer

/-! `function_name_fixup` of `logging.cpp`: the name of a function, out of what the compiler says about
it. The loops go from the end of the string back to the parenthesis of its arguments, from there to the
start of the name, and over the name again. -/
namespace JhCommon.FunctionName
open BracketNesting LogBuffer

/-- The characters of isspace. -/
def isspace (c : Char) : Bool := c ∈ [' ','\t','\n','\x0b','\x0c','\r']

/-- The counter, behind a character that may be the one to count. -/
def countAt (mark c : Char) (count : ℤ → Except LogFault ℤ) (n : ℤ) : Except LogFault ℤ :=
  if c = mark then count n else .ok n

/-- The first loop, which ends outside of parentheses. -/
def closeParen (c : Char) (n : ℤ) : Except LogFault (ℤ × Bool) := do
  let n ← countAt ')' c increment n
  let n ← countAt '(' c decrement n
  .ok (n,n = 0)

/-- The second loop, which ends at white space outside of templates. -/
def nameStart (c : Char) (n : ℤ) : Except LogFault (ℤ × Bool) :=
  if c = '>' then do
    let n ← increment n
    .ok (n,false)
  else if c = '<' then do
    let n ← decrement n
    .ok (n,false)
  else .ok (n,isspace c && n = 0)

/-- A character of the name, if it is outside of templates. -/
def copyChar (c : Char) (i : ℕ) (n : ℤ) (buf : Str) : Except LogFault (ℕ × Str) :=
  if n = 0 then do
    let buf ← store buf i [c]
    .ok (i+1,buf)
  else .ok (i,buf)

/-- The last loop, over the characters from pos to end. -/
def copyName (len : ℕ) : Str → ℕ → ℤ → Str → Except LogFault (ℕ × Str)
  | [], i, _, buf => .ok (i,buf)
  | c :: s, i, n, buf =>
    if i+1 < len then do
      let n ← countAt '>' c decrement n
      let (i,buf) ← copyChar c i n buf
      let n ← countAt '<' c increment n
      copyName len s i n buf
    else .ok (i,buf)

/-- The length that is returned, and the buffer. -/
def functionNameFixup (pretty buf : Str) (len : ℕ) : Except LogFault (ℕ × Str) := do
  let (stop,n) ← scanBack closeParen pretty.reverse 0
  if stop = 0 then
    -- a parse error: what strncpy makes of the string, cut off at len
    if len = 0 then .error .outOfBounds
    else do
      let buf ← store buf 0 ((pretty ++ List.replicate len NUL).take len)
      let buf ← store buf (len-1) [NUL]
      .ok ((cString buf).length,buf)
  else do
    let (start,_) ← scanBack nameStart (pretty.take stop).reverse n
    let (i,buf) ← copyName len ((pretty.take (stop-1)).drop start) 0 0 buf
    let buf ← store buf i [NUL]
    .ok (i,buf)

/-- The most that the bracket counter can count. -/
abbrev deepest : ℤ := 2^31-1

/-- What the compiler says about a function: its name, with templates and what is visible of it without
their insides, behind white space if it is behind anything, and its arguments. A const member function is
marked behind them. -/
structure Pretty where
  front : Str
  name : Str
  visible : Str
  args : Str
  isConst : Bool
  nameDepth : ℕ
  argsDepth : ℕ
  front_ok : front = [] ∨ ∃ s c, front = s ++ [c] ∧ isspace c = true
  name_ne : name ≠ []
  name_ok : Outlined '<' '>' nameDepth name visible
  visible_ok : ∀ c ∈ visible, isspace c = false ∧ c ≠ '(' ∧ c ≠ ')'
  args_ok : Nested '(' ')' argsDepth args

namespace Pretty

def suffix (p : Pretty) : Str := if p.isConst then [' ','c','o','n','s','t'] else []

def text (p : Pretty) : Str := p.front ++ p.name ++ '(' :: p.args ++ ')' :: p.suffix

end Pretty

/-- The name comes out: what is visible of it, as much as there is room for in front of the NUL, and its
length. What is behind it in the buffer of len characters stays. -/
def Extracts (p : Pretty) (buf : Str) : Prop :=
  ∃ out, out = p.visible.take (buf.length-1) ∧
    functionNameFixup p.text buf buf.length = .ok (out.length,out ++ NUL :: buf.drop (out.length+1))

section Copying
variable {len i d : ℕ} {n : ℤ} {s t w r buf : Str} {c : Char}

theorem copyName_full (h : len ≤ i+1) (s : Str) (n : ℤ) (buf : Str) :
    copyName len s i n buf = .ok (i,buf) := by
  cases s with
  | nil => rfl
  | cons c s => rw [copyName, if_neg (not_lt.mpr h)]

/-- A character inside of a template is not copied. -/
theorem copyName_skip {m k : ℤ} (hi : i+1 < len) (hbefore : countAt '>' c decrement n = .ok m)
    (hm : m ≠ 0) (hbehind : countAt '<' c increment m = .ok k) (s : Str) :
    copyName len (c :: s) i n buf = copyName len s i k buf := by
  have hcopy : copyChar c i m buf = .ok (i,buf) := if_neg hm
  simp only [copyName, if_pos hi, hbefore, hcopy, hbehind, ok_bind]

/-- Nothing is copied up to the end of a template. -/
theorem copyName_nested (hs : Nested '<' '>' d s) (hn : 0 < n) (hd : n+d ≤ deepest) (rest : Str) :
    copyName len (s ++ rest) i n buf = copyName len rest i n buf := by
  by_cases hi : i+1 < len
  · -- on the nesting; a full buffer ends the loop at once on both sides
    induction hs generalizing n rest with
    | nil => rfl
    | @plain d s x ho hc _ ih =>
      rw [← ih hn hd rest, List.cons_append]
      exact copyName_skip hi (if_neg hc) hn.ne' (if_neg ho) _
    | @pair d e inner tail _ _ ih ih' =>
      -- the bracket of a pair is counted behind it when it opens, and in front of it when it closes
      have hup : countAt '<' '<' increment n = .ok (n+1) := increment_ok (by unfold deepest at hd; omega)
      have hdown : countAt '>' '>' decrement (n+1) = .ok n := by
        rw [countAt, if_pos rfl, decrement_ok (by omega), add_sub_cancel_right]
      calc copyName len ('<' :: inner ++ '>' :: tail ++ rest) i n buf
          = copyName len ('<' :: (inner ++ '>' :: (tail ++ rest))) i n buf := by simp
        _ = copyName len (inner ++ '>' :: (tail ++ rest)) i (n+1) buf :=
            copyName_skip hi rfl hn.ne' hup _
        _ = copyName len ('>' :: (tail ++ rest)) i (n+1) buf := ih (by omega) (by omega) _
        _ = copyName len (tail ++ rest) i n buf := copyName_skip hi hdown hn.ne' rfl _
        _ = copyName len rest i n buf := ih' hn (by omega) rest
  · rw [copyName_full (not_lt.mp hi), copyName_full (not_lt.mp hi)]

/-- The loop copies out behind w, over the first characters of r. -/
def Copies (len : ℕ) (s : Str) (n : ℤ) (w r out : Str) : Prop :=
  copyName len s w.length n (w ++ r) = .ok ((w ++ out).length,w ++ out ++ r.drop out.length)

/-- A character outside of the templates is copied, if there is room for it. -/
theorem Copies.char {m : ℤ} (hlen : len = (w ++ r).length) (hbefore : countAt '>' c decrement n = .ok 0)
    (hbehind : countAt '<' c increment 0 = .ok m)
    (h : len = (w ++ [c] ++ r.drop 1).length →
      Copies len s m (w ++ [c]) (r.drop 1) (t.take (len-1-(w ++ [c]).length))) :
    Copies len (c :: s) n w r ((c :: t).take (len-1-w.length)) := by
  rw [List.length_append] at hlen
  unfold Copies at h ⊢
  by_cases hroom : w.length+1 < len
  · have htake : (c :: t).take (len-1-w.length) = c :: t.take (len-1-(w ++ [c]).length) := by
      rw [List.length_append, List.length_singleton, show len-1-w.length = (len-1-(w.length+1))+1 by omega,
        List.take_succ_cons]
    have hcopy : copyChar c w.length 0 (w ++ r) = .ok ((w ++ [c]).length,w ++ [c] ++ r.drop 1) := by
      have hfits : [c].length ≤ r.length := by
        rw [List.length_singleton]
        omega
      rw [copyChar, if_pos rfl, store_ok rfl rfl hfits, List.length_append]
      rfl
    have hrest := h (by simp; omega)
    simp only [copyName, if_pos hroom, hbefore, hcopy, hbehind, ok_bind]
    rw [hrest, htake]
    simp
  · rw [copyName_full (not_lt.mp hroom), show len-1-w.length = 0 by omega]
    simp

/-- What is visible of a name is copied, as long as there is room. -/
theorem Copies.outlined (hs : Outlined '<' '>' d s t) (hd : (d : ℤ) ≤ deepest)
    (hlen : len = (w ++ r).length) : Copies len s 0 w r (t.take (len-1-w.length)) := by
  induction hs generalizing w r with
  | nil => simp [Copies, copyName]
  -- on the outline, of which each character is copied
  | @plain d s t x ho hc _ ih => exact .char hlen (if_neg hc) (if_neg ho) (ih hd)
  | @pair d e inner rest t hinner _ ih =>
    rw [List.cons_append]
    refine .char (m := 1) hlen rfl rfl fun hlen' => ?_
    -- nothing of the inside
    have hskip : copyName len (inner ++ '>' :: rest) (w ++ ['<']).length 1 (w ++ ['<'] ++ r.drop 1) =
        copyName len ('>' :: rest) (w ++ ['<']).length 1 (w ++ ['<'] ++ r.drop 1) :=
      copyName_nested hinner one_pos (by omega) _
    have hclose : Copies len ('>' :: rest) 1 (w ++ ['<']) (r.drop 1)
        (('>' :: t).take (len-1-(w ++ ['<']).length)) := .char hlen' rfl rfl (ih (by omega))
    exact hskip.trans hclose

end Copying

section Scans
variable {front name visible b buf : Str} {x : Char} {d : ℕ}

theorem closeParen_counts : Counts closeParen '(' ')' deepest .overflow := by
  constructor
  case up =>
    intro n hn hM
    have hup : countAt ')' ')' increment n = .ok (n+1) := increment_ok hM
    have hsame : countAt '(' ')' decrement (n+1) = .ok (n+1) := rfl
    simp only [closeParen, hup, hsame, ok_bind]
    rw [decide_eq_false (by omega)]
  case down =>
    intro n hn
    have hsame : countAt ')' '(' increment n = .ok n := rfl
    have hdown : countAt '(' '(' decrement n = .ok (n-1) := decrement_ok (by omega)
    simp only [closeParen, hdown, hsame, ok_bind]
    rw [decide_eq_false (by omega)]
  case plain =>
    intro n c hn ho hc
    have hsame : countAt ')' c increment n = .ok n := if_neg hc
    have hsame' : countAt '(' c decrement n = .ok n := if_neg ho
    simp only [closeParen, hsame, hsame', ok_bind]
    rw [decide_eq_false hn.ne']
  case full => rfl

theorem nameStart_plain {c : Char} (ho : c ≠ '<') (hc : c ≠ '>') (n : ℤ) :
    nameStart c n = .ok (n,isspace c && n = 0) := by
  rw [nameStart, if_neg hc, if_neg ho]

theorem nameStart_counts : Counts nameStart '<' '>' deepest .overflow := by
  constructor
  case up =>
    intro n _ hM
    rw [nameStart, if_pos rfl, increment_ok hM]
    rfl
  case down =>
    intro n hn
    rw [nameStart, if_neg (by decide), if_pos rfl, decrement_ok (by omega)]
    rfl
  case plain =>
    intro n c hn ho hc
    rw [nameStart_plain ho hc, decide_eq_false hn.ne', Bool.and_false]
  case full => rfl

/-- The white space in front of the name, or the start of the string. -/
theorem scanBack_front (hfront : front = [] ∨ ∃ s c, front = s ++ [c] ∧ isspace c = true) :
    scanBack nameStart front.reverse 0 = .ok (front.length,0) := by
  rcases hfront with rfl | ⟨s,c,rfl,hc⟩
  · rfl
  · have hmark : c ≠ '<' ∧ c ≠ '>' := by
      constructor <;> rintro rfl <;> exact absurd hc (by decide)
    have hstop : nameStart c 0 = .ok (0,true) := by
      rw [nameStart_plain hmark.1 hmark.2, hc]
      rfl
    rw [List.reverse_append, List.reverse_singleton, List.singleton_append, scanBack_stop hstop]
    simp

/-- A name that the first loop leaves at the character behind it comes out, unless its templates are
nested too deep. -/
theorem functionNameFixup_at (hx : x ≠ '<' ∧ x ≠ '>' ∧ isspace x = false)
    (hstop : scanBack closeParen (front ++ name ++ x :: b).reverse 0 = .ok ((front ++ name).length+1,0))
    (hfront : front = [] ∨ ∃ s c, front = s ++ [c] ∧ isspace c = true)
    (hname : Outlined '<' '>' d name visible) (hvisible : ∀ c ∈ visible, isspace c = false)
    (hbuf : buf ≠ []) :
    ∃ out, out = visible.take (buf.length-1) ∧
      functionNameFixup (front ++ name ++ x :: b) buf buf.length = if (d : ℤ) ≤ deepest
        then .ok (out.length,out ++ NUL :: buf.drop (out.length+1)) else .error .overflow := by
  obtain ⟨hlt,hgt,hspace⟩ := hx
  have hplain (c : Char) (hlt : c ≠ '<') (hgt : c ≠ '>') (hc : isspace c = false) :
      nameStart c 0 = .ok (0,false) := by
    rw [nameStart_plain hlt hgt, hc]
    rfl
  have htext : (front ++ name ++ x :: b).take ((front ++ name).length+1) = front ++ name ++ [x] := by
    rw [List.take_length_add_append, List.take_succ_cons, List.take_zero]
  -- back over the character behind the name, the name and what is in front of it
  have hscan : scanBack nameStart (front ++ name ++ [x]).reverse 0 =
      if (d : ℤ) ≤ deepest then .ok (front.length,0) else .error .overflow := by
    have hback : (front ++ name ++ [x]).reverse = x :: (name.reverse ++ front.reverse) := by simp
    rw [hback, scanBack_on (hplain x hlt hgt hspace),
      nameStart_counts.outlined (by decide) rfl rfl hname fun c hc hlt hgt =>
        hplain c hlt hgt (hvisible c hc), scanBack_front hfront]
  have hpiece : ((front ++ name ++ x :: b).take (front ++ name).length).drop front.length = name := by
    rw [List.take_left, List.drop_left]
  obtain ⟨out,hout⟩ : ∃ out, out = visible.take (buf.length-1) := ⟨_,rfl⟩
  -- the name leaves room for its NUL
  have hend : store (out ++ buf.drop out.length) out.length [NUL] =
      .ok (out ++ NUL :: buf.drop (out.length+1)) := by
    have hroom : [NUL].length ≤ (buf.drop out.length).length := by
      have := List.length_pos_of_ne_nil hbuf
      rw [hout]
      simp
      omega
    rw [store_ok rfl rfl hroom]
    simp
  refine ⟨out,hout,?_⟩
  simp only [functionNameFixup, hstop, ok_bind, if_neg (Nat.succ_ne_zero _), htext, hscan]
  by_cases hd : (d : ℤ) ≤ deepest
  · have hcopy : copyName buf.length name 0 0 buf = .ok (out.length,out ++ buf.drop out.length) := by
      rw [hout]
      exact Copies.outlined (w := []) hname hd rfl
    simp only [if_pos hd, ok_bind, Nat.add_sub_cancel, hpiece, hcopy, hend]
  · simp only [if_neg hd, error_bind]

end Scans

section Names
variable {p : Pretty} {buf : Str}

/-- In front of a string that ends with its arguments the first loop gets to their parenthesis. -/
theorem closeParen_args {d : ℕ} {s : Str} (front : Str) (hs : Nested '(' ')' d s) :
    scanBack closeParen (front ++ '(' :: s ++ [')']).reverse 0 =
      if (d+1 : ℤ) ≤ deepest then .ok (front.length+1,0) else .error .overflow := by
  have hback : (front ++ '(' :: s ++ [')']).reverse = ')' :: (s.reverse ++ '(' :: front.reverse) := by simp
  have hfirst : closeParen ')' 0 = .ok (1,false) := rfl
  have hlast : closeParen '(' 1 = .ok (0,true) := rfl
  rw [hback, scanBack_on hfirst, closeParen_counts.nested hs one_pos (by decide), scanBack_stop hlast,
    List.length_reverse, add_comm]

/-- Behind a const it stops at once. -/
theorem closeParen_const (front : Str) :
    scanBack closeParen (front ++ ['t']).reverse 0 = .ok (front.length+1,0) := by
  have hstop : closeParen 't' 0 = .ok (0,true) := rfl
  rw [List.reverse_append, List.reverse_singleton, List.singleton_append, scanBack_stop hstop,
    List.length_reverse]

/-- What comes out for a const member function. -/
def constName : Str := ['c','o','n','s']

/-- A name in front of its arguments comes out, if neither the arguments nor the templates are nested too
deep. -/
theorem functionNameFixup_plain (hp : p.isConst = false) (hbuf : buf ≠ []) :
    ∃ out, out = p.visible.take (buf.length-1) ∧ functionNameFixup p.text buf buf.length =
      if (p.argsDepth+1 : ℤ) ≤ deepest ∧ (p.nameDepth : ℤ) ≤ deepest
        then .ok (out.length,out ++ NUL :: buf.drop (out.length+1)) else .error .overflow := by
  have htext : p.text = p.front ++ p.name ++ '(' :: (p.args ++ [')']) := by
    simp [Pretty.text, Pretty.suffix, hp]
  have hscan := closeParen_args (p.front ++ p.name) p.args_ok
  rw [List.append_assoc, List.cons_append] at hscan
  by_cases hargs : (p.argsDepth+1 : ℤ) ≤ deepest
  · rw [if_pos hargs] at hscan
    obtain ⟨out,hout,hfix⟩ := functionNameFixup_at (by decide) hscan p.front_ok p.name_ok
      (fun c hc => (p.visible_ok c hc).1) hbuf
    refine ⟨out,hout,?_⟩
    rw [htext, hfix]
    simp only [hargs, true_and]
  · rw [if_neg hargs] at hscan
    refine ⟨_,rfl,?_⟩
    rw [htext, if_neg fun h => hargs h.1, functionNameFixup, hscan]
    rfl

/-- For a const member function the word const comes out, without its last letter. -/
theorem functionNameFixup_const (hp : p.isConst = true) (hbuf : buf ≠ []) :
    ∃ out, out = constName.take (buf.length-1) ∧ functionNameFixup p.text buf buf.length =
      .ok (out.length,out ++ NUL :: buf.drop (out.length+1)) := by
  have htext : p.text = (p.front ++ p.name ++ '(' :: p.args ++ [')',' ']) ++ constName ++ 't' :: [] := by
    simp [Pretty.text, Pretty.suffix, hp, constName]
  have hfront : ∃ s c, p.front ++ p.name ++ '(' :: p.args ++ [')',' '] = s ++ [c] ∧ isspace c = true :=
    ⟨p.front ++ p.name ++ '(' :: p.args ++ [')'],' ',by simp,rfl⟩
  -- what stands in front of the t is taken for the name, behind the blank
  have hname : Outlined '<' '>' 0 constName constName := outlined_of_plain (by simp [constName])
  obtain ⟨out,hout,hfix⟩ := functionNameFixup_at (by decide) (closeParen_const _) (.inr hfront) hname
    (by simp [constName, isspace]) hbuf
  refine ⟨out,hout,?_⟩
  rw [htext, hfix, if_pos (by decide)]

end Names

/-- The name comes out of a string that ends with the arguments, if the nesting can be counted, and out of
that of a const member function only where the name looks like the word const. -/
theorem extracts_iff (p : Pretty) {buf : Str} (hbuf : buf ≠ []) :
    Extracts p buf ↔ if p.isConst then p.visible.take (buf.length-1) = constName.take (buf.length-1)
      else (p.argsDepth+1 : ℤ) ≤ deepest ∧ (p.nameDepth : ℤ) ≤ deepest := by
  cases hp : p.isConst
  case false =>
    obtain ⟨out,hout,hfix⟩ := functionNameFixup_plain hp hbuf
    rw [Extracts, hfix, if_neg Bool.false_ne_true]
    by_cases hdepth : (p.argsDepth+1 : ℤ) ≤ deepest ∧ (p.nameDepth : ℤ) ≤ deepest
    · rw [if_pos hdepth]
      exact iff_of_true ⟨out,hout,rfl⟩ hdepth
    · rw [if_neg hdepth]
      refine iff_of_false ?_ hdepth
      rintro ⟨_,_,herr⟩
      cases herr
  case true =>
    obtain ⟨out,hout,hfix⟩ := functionNameFixup_const hp hbuf
    rw [Extracts, hfix, if_pos rfl, ← hout]
    constructor
    · -- two outputs of one length are equal if their buffers are
      rintro ⟨out',hout',heq⟩
      obtain ⟨hlen,hbuf⟩ := Prod.mk.inj (Except.ok.inj heq)
      rw [← hout']
      exact (List.append_inj hbuf hlen).1.symm
    · intro h
      exact ⟨out,h.symm,rfl⟩

theorem memberName_outlined :
    Outlined '<' '>' 1 ['A','<','x',' ','y','>',':',':','f'] ['A','<','>',':',':','f'] := by
  have hinner : Nested '<' '>' 0 ['x',' ','y'] := (outlined_of_plain (by simp)).nested
  have hrest : Outlined '<' '>' 0 [':',':','f'] [':',':','f'] := outlined_of_plain (by simp)
  exact .plain 'A' (by decide) (by decide) (.pair hinner hrest)

theorem memberArgs_nested : Nested '(' ')' 1 ['g','(','i','n','t',')'] := by
  have hinner : Nested '(' ')' 0 ['i','n','t'] := (outlined_of_plain (by simp)).nested
  exact .plain 'g' (by decide) (by decide) (.pair hinner .nil)

/-- `int A<x y>::f(g(int))`, with a const behind it or not. -/
def memberName (isConst : Bool) : Pretty where
  front := ['i','n','t',' ']
  name := ['A','<','x',' ','y','>',':',':','f']
  visible := ['A','<','>',':',':','f']
  args := ['g','(','i','n','t',')']
  isConst := isConst
  nameDepth := 1
  argsDepth := 1
  front_ok := .inr ⟨['i','n','t'],' ',rfl,rfl⟩
  name_ne := by decide
  name_ok := memberName_outlined
  visible_ok := by simp [isspace]
  args_ok := memberArgs_nested

theorem member_extracted : List.replicate 16 'x' ≠ [] ∧
    (Extracts (memberName false) (List.replicate 16 'x') ↔
      if (memberName false).isConst then
        (memberName false).visible.take ((List.replicate 16 'x').length-1) =
          constName.take ((List.replicate 16 'x').length-1)
      else ((memberName false).argsDepth+1 : ℤ) ≤ deepest ∧ ((memberName false).nameDepth : ℤ) ≤ deepest) :=
  ⟨by decide,extracts_iff (memberName false) (by decide)⟩

/-- Of `int A<x y>::f(g(int)) const` it is the word const that comes out. -/
theorem const_member_not_extracted : ¬Extracts (memberName true) (List.replicate 16 'x') := by
  have hbuf : List.replicate 16 'x' ≠ [] := by decide
  obtain ⟨out,hout,hfix⟩ := functionNameFixup_const (show (memberName true).isConst = true from rfl) hbuf
  rintro ⟨out',hout',hfix'⟩
  obtain ⟨hlen,-⟩ := Prod.mk.inj (Except.ok.inj (hfix.symm.trans hfix'))
  rw [hout, hout'] at hlen
  exact absurd hlen (by decide)

end JhCommon.FunctionName
