import JhCommon.Path

/-! What a path denotes, and when `normalize` returns a path that denotes the same. -/
namespace JhCommon

/-- A place in a tree of directories: names below the root, or below the directory so many levels
up from where one is. -/
structure Location where
  absolute : Bool
  ups : ℕ
  names : List Str
  deriving DecidableEq

namespace Path

/-- One part of a path: "." and an empty part stay, ".." goes to the parent. -/
def enter (l : Location) (part : Str) : Location :=
  if part = [] ∨ part = dot then l
  else if part = dotdot then
    if l.names ≠ [] then { l with names := l.names.dropLast }
    else if l.absolute = true then l
    else { l with ups := l.ups+1 }
  else { l with names := l.names ++ [part] }

noncomputable def denote (path : Str) : Location :=
  (path.splitOn '/').foldl enter ⟨!isRelative path,0,[]⟩

/-- The parts that do not stay. -/
def Moves (part : Str) : Prop := part ≠ [] ∧ part ≠ dot

instance : DecidablePred Moves := fun _ => inferInstanceAs (Decidable (_ ∧ _))

noncomputable def moves (path : Str) : List Str := (path.splitOn '/').filter Moves

/-- How many ".."s come first. -/
noncomputable def leading (path : Str) : ℕ := ((moves path).takeWhile (· = dotdot)).length

/-- What comes behind them. -/
noncomputable def behind (path : Str) : List Str := (moves path).dropWhile (· = dotdot)

/-- The parts left behind the leading ".."s, with u of these and n names to take back: each ".."
finds a name, or in an absolute path a "..", and something is left in the end. -/
def Climbs (absolute : Bool) : ℕ → ℕ → List Str → Prop
  | u, n, [] => 0 < u+n
  | u, n, part :: parts =>
    if part = dotdot then
      if 0 < n then Climbs absolute u (n-1) parts
      else absolute = true ∧ 0 < u ∧ Climbs absolute (u-1) 0 parts
    else Climbs absolute u (n+1) parts

/-- No ".." comes when all the names before it have been taken back, unless it is one of the
leading ones (which in an absolute path can be taken back like names), and some part remains. -/
def Normalizable (path : Str) : Prop :=
  Climbs (!isRelative path) (leading path) 0 (behind path)

theorem foldl_enter_filter (parts : List Str) (l : Location) :
    parts.foldl enter l = (parts.filter Moves).foldl enter l := by
  induction parts generalizing l with
  | nil => rfl
  | cons part parts ih =>
    rw [List.foldl_cons, List.filter_cons]
    by_cases hm : Moves part
    · rw [if_pos (by simpa using hm), List.foldl_cons]
      exact ih _
    · have hstay : enter l part = l := by
        rw [enter, if_pos]
        by_contra h
        exact hm (not_or.mp h)
      rw [if_neg (by simpa using hm), hstay]
      exact ih l

theorem normalizeParts_filter (parts : List Str) (start : Bool) (parts2 : PartVector) :
    normalizeParts parts start parts2 = normalizeParts (parts.filter Moves) start parts2 := by
  induction parts generalizing start parts2 with
  | nil => rfl
  | cons part parts ih =>
    rw [List.filter_cons]
    by_cases hm : Moves part
    · rw [if_pos (by simpa using hm)]
      simp only [normalizeParts, ih]
    · have hdd : part ≠ dotdot := by
        rintro rfl
        exact hm (by decide)
      rw [if_neg (by simpa using hm), normalizeParts, if_neg hdd, if_neg]
      · exact ih start parts2
      · rintro ⟨hd,hn⟩
        exact hm ⟨hn,hd⟩

/-- The pieces of `split` that move are the parts of the path that do. -/
theorem split_moves (path : Str) : ∃ parts, path.split ['/'] = .ok parts ∧
    parts.filter Moves = moves path := by
  obtain ⟨parts,hsplit,hparts⟩ := Str.split_spec path ['/']
  refine ⟨parts,hsplit,?_⟩
  have hmoves (l : List Str) : l.filter Moves = (l.filter (· ≠ [])).filter Moves := by
    rw [List.filter_filter]
    apply List.filter_congr
    intro part _
    by_cases hne : part = [] <;> simp [Moves, hne]
  have hslash : (fun c : Char => decide (c ∈ ['/'])) = (· == '/') := by
    funext c
    exact Bool.eq_iff_iff.mpr (by simp)
  rw [hmoves, hparts, Str.pieces, hslash, ← List.splitOn_eq_splitOnP, ← hmoves]
  rfl

theorem not_mem_of_mem_splitOn {c : Char} {s part : Str} (h : part ∈ s.splitOn c) : c ∉ part := by
  induction s generalizing part with
  | nil =>
    rw [List.splitOn_nil, List.mem_singleton] at h
    rw [h]
    exact List.not_mem_nil
  | cons d s ih =>
    rw [List.splitOn_cons_eq_if_modifyHead] at h
    split_ifs at h with hd
    · rcases List.mem_cons.mp h with rfl | h
      · exact List.not_mem_nil
      · exact ih h
    · cases hs : s.splitOn c with
      | nil => exact absurd hs (List.splitOn_ne_nil c s)
      | cons first rest =>
        rw [hs, List.modifyHead_cons] at h
        rcases List.mem_cons.mp h with rfl | h
        · have hfirst : c ∉ first := ih (hs ▸ List.mem_cons_self)
          have hne : c ≠ d := by
            rintro rfl
            exact hd (by simp)
          exact List.not_mem_cons_of_ne_of_not_mem hne hfirst
        · exact ih (hs ▸ List.mem_cons_of_mem first h)

theorem moves_mem {path part : Str} (h : part ∈ moves path) : Moves part ∧ '/' ∉ part := by
  obtain ⟨hmem,hm⟩ := List.mem_filter.mp h
  exact ⟨by simpa using hm,not_mem_of_mem_splitOn hmem⟩

/-- A name is a part that goes down. -/
def IsName (part : Str) : Prop := Moves part ∧ part ≠ dotdot ∧ '/' ∉ part

/-- The parts2 of `normalize` once a name was met: some leading ".."s, and names. -/
def stack (u : ℕ) (names : List Str) : PartVector := List.replicate u dotdot ++ names

theorem stack_push (u : ℕ) (names : List Str) (part : Str) :
    stack u names ++ [part] = stack u (names ++ [part]) := List.append_assoc _ _ _

theorem erase_last {v : PartVector} (hv : v ≠ []) : v.erase v.last = .ok v.dropLast := by
  have hlen := List.length_pos_of_ne_nil hv
  have hlast : v.last = v.length-1 := if_neg (by omega)
  rw [PartVector.erase, hlast, if_pos (by omega), List.eraseIdx_length_sub_one]

/-- Taking a name back. -/
theorem erase_name {u : ℕ} {names : List Str} (hn : names ≠ []) :
    (stack u names).erase (stack u names).last = .ok (stack u names.dropLast) := by
  rw [erase_last (by simp [stack, hn]), stack, List.dropLast_append_of_ne_nil hn]
  rfl

/-- Taking a leading ".." back, which makes the path go up less. -/
theorem erase_dotdot (u : ℕ) : (stack (u+1) []).erase (stack (u+1) []).last = .ok (stack u []) := by
  rw [erase_last (by simp [stack]), stack, List.append_nil, List.dropLast_replicate, stack,
    List.append_nil]
  rfl

theorem erase_nil : (stack 0 []).erase (stack 0 []).last = .error .fatal := rfl

theorem isName_append {names : List Str} {part : Str} (hnames : ∀ name ∈ names, IsName name)
    (hpart : IsName part) : ∀ name ∈ names ++ [part], IsName name := by
  intro name hname
  rcases List.mem_append.mp hname with hname | hname
  · exact hnames name hname
  · rw [List.mem_singleton.mp hname]
    exact hpart

/-- What the first loop and the place it denotes come to, from a stack on: it leaves fewer ".."s
for each one that is taken back, while the place is then further up. -/
theorem normalizeParts_stack {parts : List Str} {u : ℕ} {names : List Str} {st : PartVector}
    (hparts : ∀ part ∈ parts, Moves part ∧ '/' ∉ part) (hnames : ∀ name ∈ names, IsName name)
    (h : normalizeParts parts false (stack u names) = .ok st) :
    ∃ u' names', st = stack u' names' ∧ u' ≤ u ∧ (∀ name ∈ names', IsName name) ∧
      (∀ ups, parts.foldl enter ⟨false,ups,names⟩ = ⟨false,ups+(u-u'),names'⟩) ∧
      ∀ ups, parts.foldl enter ⟨true,ups,names⟩ = ⟨true,ups,names'⟩ := by
  induction parts generalizing u names with
  | nil =>
    obtain rfl := Except.ok.inj h
    exact ⟨u,names,rfl,le_rfl,hnames,fun ups => by simp,fun ups => rfl⟩
  | cons part parts ih =>
    have hpart := hparts part List.mem_cons_self
    have hrest := fun p hp => hparts p (List.mem_cons_of_mem part hp)
    have hmove : ¬(part = [] ∨ part = dot) := not_or.mpr hpart.1
    rw [normalizeParts] at h
    by_cases hdd : part = dotdot
    · rw [if_pos hdd, if_pos rfl] at h
      -- a ".." takes the last name back, and where there is none a leading ".."
      by_cases hn : names = []
      · subst hn
        cases u with
        | zero =>
          rw [erase_nil, error_bind] at h
          cases h
        | succ u =>
          rw [erase_dotdot, ok_bind] at h
          obtain ⟨u',names',hst,hle,hn,hrel,habs⟩ := ih hrest hnames h
          refine ⟨u',names',hst,by omega,hn,?_,?_⟩
          · intro ups
            rw [List.foldl_cons, enter, if_neg hmove, if_pos hdd, if_neg (by simp), if_neg (by simp)]
            rw [hrel, show ups+1+(u-u') = ups+(u+1-u') by omega]
          · intro ups
            rw [List.foldl_cons, enter, if_neg hmove, if_pos hdd, if_neg (by simp), if_pos rfl]
            exact habs ups
      · rw [erase_name hn, ok_bind] at h
        obtain ⟨u',names',hst,hle,hn',hrel,habs⟩ := ih hrest
          (fun name hname => hnames name (List.mem_of_mem_dropLast hname)) h
        refine ⟨u',names',hst,hle,hn',?_,?_⟩
        · intro ups
          rw [List.foldl_cons, enter, if_neg hmove, if_pos hdd, if_pos hn]
          exact hrel ups
        · intro ups
          rw [List.foldl_cons, enter, if_neg hmove, if_pos hdd, if_pos hn]
          exact habs ups
    · rw [if_neg hdd, if_pos ⟨hpart.1.2,hpart.1.1⟩, stack_push] at h
      have hnames' := isName_append hnames ⟨hpart.1,hdd,hpart.2⟩
      obtain ⟨u',names',hst,hle,hn,hrel,habs⟩ := ih hrest hnames' h
      refine ⟨u',names',hst,hle,hn,?_,?_⟩
      · intro ups
        rw [List.foldl_cons, enter, if_neg hmove, if_neg hdd]
        exact hrel ups
      · intro ups
        rw [List.foldl_cons, enter, if_neg hmove, if_neg hdd]
        exact habs ups

/-- A stack tells its ".."s from its names. -/
theorem stack_inj {u u' : ℕ} {names names' : List Str} (hn : ∀ name ∈ names, IsName name)
    (hn' : ∀ name ∈ names', IsName name) (h : stack u names = stack u' names') :
    u = u' ∧ names = names' := by
  have hhead {l : List Str} (hl : ∀ name ∈ l, IsName name) (k : ℕ) : l ≠ stack (k+1) names' ∧
      l ≠ stack (k+1) names := by
    constructor <;> rintro rfl <;> exact (hl dotdot (by simp [stack])).2.1 rfl
  induction u generalizing u' with
  | zero =>
    cases u' with
    | zero => exact ⟨rfl,h⟩
    | succ u' => exact absurd h (hhead hn u').1
  | succ u ih =>
    cases u' with
    | zero => exact absurd h.symm (hhead hn' u).2
    | succ u' =>
      obtain ⟨rfl,hnames⟩ := ih (List.cons.inj h).2
      exact ⟨rfl,hnames⟩

/-- The first loop ends well, with some part left and in a relative path all of the leading ".."s,
exactly if the parts climb. -/
theorem normalizeParts_iff {absolute : Bool} {parts : List Str} {u : ℕ} {names : List Str}
    (hparts : ∀ part ∈ parts, Moves part ∧ '/' ∉ part) (hnames : ∀ name ∈ names, IsName name) :
    (∃ u' names', normalizeParts parts false (stack u names) = .ok (stack u' names') ∧
      (∀ name ∈ names', IsName name) ∧ 0 < u'+names'.length ∧ (absolute = false → u' = u)) ↔
    Climbs absolute u names.length parts := by
  induction parts generalizing u names with
  | nil =>
    rw [normalizeParts, Climbs]
    constructor
    · rintro ⟨u',names',hst,hn',hpos,-⟩
      obtain ⟨rfl,rfl⟩ := stack_inj hnames hn' (Except.ok.inj hst)
      exact hpos
    · intro hpos
      exact ⟨u,names,rfl,hnames,hpos,fun _ => rfl⟩
  | cons part parts ih =>
    have hpart := hparts part List.mem_cons_self
    have hrest := fun p hp => hparts p (List.mem_cons_of_mem part hp)
    rw [normalizeParts, Climbs]
    by_cases hdd : part = dotdot
    · rw [if_pos hdd, if_pos hdd, if_pos rfl]
      by_cases hn : names = []
      · subst hn
        rw [if_neg (by simp)]
        cases u with
        | zero => simp [erase_nil]
        | succ u =>
          rw [erase_dotdot, ok_bind]
          cases absolute with
          | true =>
            have hiff := ih (u := u) hrest hnames
            simpa using hiff
          | false =>
            apply iff_of_false
            · rintro ⟨u',names',hst,hn',-,hkept⟩
              -- a leading ".." that has gone does not come back
              obtain ⟨v,rest,hv,hle,hnv,-⟩ := normalizeParts_stack hrest hnames hst
              obtain ⟨rfl,-⟩ := stack_inj hn' hnv hv
              have := hkept rfl
              omega
            · simp
      · rw [if_pos (List.length_pos_of_ne_nil hn), erase_name hn, ok_bind,
          ← List.length_dropLast]
        exact ih hrest (fun name hname => hnames name (List.mem_of_mem_dropLast hname))
    · have hnames' := isName_append hnames ⟨hpart.1,hdd,hpart.2⟩
      rw [if_neg hdd, if_neg hdd, if_pos ⟨hpart.1.2,hpart.1.1⟩, stack_push]
      have hiff := ih (u := u) hrest hnames'
      rwa [List.length_append] at hiff

/-- Leading ".."s are kept. -/
theorem normalizeParts_leading (k j : ℕ) (parts : List Str) :
    normalizeParts (List.replicate k dotdot ++ parts) true (stack j []) =
      normalizeParts parts true (stack (j+k) []) := by
  induction k generalizing j with
  | zero => rfl
  | succ k ih =>
    have hpush : stack j [] ++ [dotdot] = stack (j+1) [] := by
      simp [stack, List.replicate_succ']
    rw [List.replicate_succ, List.cons_append, normalizeParts, if_pos rfl, if_neg (by simp), hpush, ih,
      show j+1+k = j+(k+1) by omega]

/-- Where no ".." comes first it does not matter whether a name was met. -/
theorem normalizeParts_start {parts : List Str} (hmoves : ∀ part ∈ parts, Moves part)
    (hhead : parts.head? ≠ some dotdot) (v : PartVector) :
    normalizeParts parts true v = normalizeParts parts false v := by
  cases parts with
  | nil => rfl
  | cons part parts =>
    have hdd : part ≠ dotdot := fun h => hhead (congrArg some h)
    have hm := hmoves part List.mem_cons_self
    rw [normalizeParts, normalizeParts, if_neg hdd, if_neg hdd, if_pos ⟨hm.2,hm.1⟩,
      if_pos ⟨hm.2,hm.1⟩]

theorem foldl_enter_leading (k j : ℕ) : (List.replicate k dotdot).foldl enter ⟨true,j,[]⟩ = ⟨true,j,[]⟩ ∧
    (List.replicate k dotdot).foldl enter ⟨false,j,[]⟩ = ⟨false,j+k,[]⟩ := by
  induction k generalizing j with
  | zero => exact ⟨rfl,rfl⟩
  | succ k ih =>
    have habs : enter ⟨true,j,[]⟩ dotdot = ⟨true,j,[]⟩ := rfl
    have hrel : enter ⟨false,j,[]⟩ dotdot = ⟨false,j+1,[]⟩ := rfl
    rw [List.replicate_succ, List.foldl_cons, List.foldl_cons, habs, hrel, (ih j).1, (ih (j+1)).2,
      show j+1+k = j+(k+1) by omega]
    exact ⟨rfl,rfl⟩

theorem foldl_enter_names {names : List Str} (hn : ∀ name ∈ names, IsName name) (a : Bool) (u : ℕ)
    (l : List Str) : names.foldl enter ⟨a,u,l⟩ = ⟨a,u,l ++ names⟩ := by
  induction names generalizing l with
  | nil => rw [List.foldl_nil, List.append_nil]
  | cons name names ih =>
    have hname := hn name List.mem_cons_self
    have henter : enter ⟨a,u,l⟩ name = ⟨a,u,l ++ [name]⟩ := by
      rw [enter, if_neg (not_or.mpr hname.1), if_neg hname.2.1]
    rw [List.foldl_cons, henter, ih (fun n h => hn n (List.mem_cons_of_mem name h)),
      List.append_assoc]
    rfl

/-- The second loop joins the parts but the last, each with a separator behind it. -/
theorem appendParts_eq (v : PartVector) {turns i : ℕ} (path : Str) (h : i+turns ≤ v.length) :
    appendParts v turns i path = .ok (path ++ ((v.drop i).take turns).flatMap (· ++ ['/'])) := by
  induction turns generalizing i path with
  | zero => simp [appendParts]
  | succ turns ih =>
    have hi : i < v.length := by omega
    have hpart : v.lookup i = .ok v[i] := by rw [PartVector.lookup, List.getElem?_eq_getElem hi]
    rw [appendParts, hpart, ok_bind, ih _ (by omega), ← List.getElem_cons_drop hi, List.take_succ_cons,
      List.flatMap_cons, List.append_assoc, List.append_assoc]
    simp

theorem intercalate_eq {v : List Str} (hv : v ≠ []) (c : Char) :
    (v.take (v.length-1)).flatMap (· ++ [c]) ++ v.getLast hv = [c].intercalate v := by
  induction v with
  | nil => exact absurd rfl hv
  | cons part v ih =>
    cases v with
    | nil => simp
    | cons part' v =>
      have hrest := ih (by simp)
      rw [List.intercalate_cons_of_ne_nil (by simp), ← hrest]
      simp

/-- What is returned, unless nothing is left: then an element of the empty vector is looked at. -/
theorem normalize_eq {path : Str} {parts2 : PartVector}
    (h : normalizeParts (moves path) true [] = .ok parts2) :
    normalize path = if parts2 = [] then .error .nullDeref
      else .ok ((if isRelative path = false then ['/'] else []) ++ ['/'].intercalate parts2) := by
  obtain ⟨parts,hsplit,hmoves⟩ := split_moves path
  rw [normalize, hsplit, ok_bind, normalizeParts_filter, hmoves, h, ok_bind]
  generalize (if isRelative path = false then ['/'] else []) = root
  by_cases hnil : parts2 = []
  · subst hnil
    rfl
  · have hlen := List.length_pos_of_ne_nil hnil
    have hlast : parts2.last = parts2.length-1 := if_neg (by omega)
    have hget : parts2.lookup parts2.last = .ok (parts2.getLast hnil) := by
      rw [PartVector.lookup, hlast, List.getElem?_eq_getElem (by omega), List.getLast_eq_getElem]
    rw [if_neg hnil]
    simp only [hget, ok_bind]
    rw [hlast, appendParts_eq _ _ (by omega), ok_bind, List.drop_zero, List.append_assoc,
      intercalate_eq hnil]

theorem stack_ne_nil {u : ℕ} {names : List Str} (hpos : 0 < u+names.length) : stack u names ≠ [] := by
  rw [← List.length_pos_iff_ne_nil, stack, List.length_append, List.length_replicate]
  exact hpos

theorem stack_mem {u : ℕ} {names : List Str} (hn : ∀ name ∈ names, IsName name) {part : Str}
    (h : part ∈ stack u names) : Moves part ∧ '/' ∉ part := by
  rcases List.mem_append.mp h with h | h
  · rw [List.eq_of_mem_replicate h]
    exact ⟨by decide,by decide⟩
  · exact ⟨(hn part h).1,(hn part h).2.2⟩

/-- No part of a stack has a slash in it, so that splitting undoes the join. -/
theorem splitOn_stack {u : ℕ} {names : List Str} (hn : ∀ name ∈ names, IsName name)
    (hpos : 0 < u+names.length) (absolute : Bool) :
    ((if absolute = true then ['/'] else []) ++ ['/'].intercalate (stack u names)).splitOn '/' =
      (if absolute = true then [[]] else []) ++ stack u names := by
  have hsplit : (['/'].intercalate (stack u names)).splitOn '/' = stack u names :=
    List.splitOn_intercalate '/' (fun part hpart => (stack_mem hn hpart).2) (stack_ne_nil hpos)
  cases absolute with
  | true =>
    have happ := List.splitOn_append_cons_self_of_not_mem (List.not_mem_nil : '/' ∉ [])
      (['/'].intercalate (stack u names))
    rwa [hsplit] at happ
  | false => exact hsplit

theorem isRelative_stack {u : ℕ} {names : List Str} (hn : ∀ name ∈ names, IsName name)
    (hpos : 0 < u+names.length) (absolute : Bool) :
    isRelative ((if absolute = true then ['/'] else []) ++ ['/'].intercalate (stack u names)) =
      !absolute := by
  cases absolute with
  | true => rfl
  | false =>
    cases hst : stack u names with
    | nil => exact absurd hst (stack_ne_nil hpos)
    | cons part rest =>
      obtain ⟨⟨hpart,-⟩,hslash⟩ := stack_mem hn (hst ▸ List.mem_cons_self)
      cases part with
      | nil => exact absurd rfl hpart
      | cons c part =>
        have hc : c ≠ '/' := by
          rintro rfl
          exact hslash List.mem_cons_self
        cases rest <;> simp [isRelative, List.intercalate, hc]

/-- What a stack that is put together again denotes. -/
theorem denote_stack {u : ℕ} {names : List Str} (hn : ∀ name ∈ names, IsName name)
    (hpos : 0 < u+names.length) (absolute : Bool) :
    denote ((if absolute = true then ['/'] else []) ++ ['/'].intercalate (stack u names)) =
      ⟨absolute,if absolute = true then 0 else u,names⟩ := by
  have hfold : (stack u names).foldl enter ⟨absolute,0,[]⟩ =
      ⟨absolute,if absolute = true then 0 else u,names⟩ := by
    rw [stack, List.foldl_append]
    cases absolute with
    | true => rw [(foldl_enter_leading u 0).1, foldl_enter_names hn]; rfl
    | false => rw [(foldl_enter_leading u 0).2, foldl_enter_names hn, Nat.zero_add]; rfl
  rw [denote, splitOn_stack hn hpos, isRelative_stack hn hpos, Bool.not_not, List.foldl_append, ← hfold]
  cases absolute <;> rfl

theorem moves_eq (path : Str) : moves path = List.replicate (leading path) dotdot ++ behind path := by
  have hlead : (moves path).takeWhile (· = dotdot) = List.replicate (leading path) dotdot := by
    rw [List.eq_replicate_iff]
    refine ⟨rfl,?_⟩
    intro part hpart
    simpa using List.all_eq_true.mp List.all_takeWhile part hpart
  rw [← hlead, behind, List.takeWhile_append_dropWhile]

theorem behind_mem {path part : Str} (h : part ∈ behind path) : Moves part ∧ '/' ∉ part :=
  moves_mem (moves_eq path ▸ List.mem_append_right _ h)

/-- The first loop keeps the leading ".."s, and starts to take back behind them. -/
theorem normalizeParts_moves (path : Str) : normalizeParts (moves path) true [] =
    normalizeParts (behind path) false (stack (leading path) []) := by
  have hhead : (behind path).head? ≠ some dotdot := by
    have hnot := List.head?_dropWhile_not (fun part => decide (part = dotdot)) (moves path)
    intro h
    rw [behind] at h
    rw [h] at hnot
    simp at hnot
  have hlead := normalizeParts_leading (leading path) 0 (behind path)
  rw [Nat.zero_add, ← moves_eq,
    normalizeParts_start (fun part hpart => (behind_mem hpart).1) hhead] at hlead
  exact hlead

/-- The place that is denoted, from behind the leading ".."s on. -/
theorem denote_eq (path : Str) : denote path = (behind path).foldl enter
    ⟨!isRelative path,if (!isRelative path) = true then 0 else leading path,[]⟩ := by
  have hmoves : (path.splitOn '/').filter Moves = moves path := rfl
  rw [denote, foldl_enter_filter, hmoves, moves_eq, List.foldl_append]
  cases isRelative path with
  | true => rw [Bool.not_true, (foldl_enter_leading _ 0).2, Nat.zero_add]; rfl
  | false => rw [Bool.not_false, (foldl_enter_leading _ 0).1]; rfl

/-- What is returned for a stack that is not empty. -/
theorem normalize_of_stack {path : Str} {u : ℕ} {names : List Str} (hpos : 0 < u+names.length)
    (hst : normalizeParts (behind path) false (stack (leading path) []) = .ok (stack u names)) :
    normalize path = .ok ((if (!isRelative path) = true then ['/'] else []) ++
      ['/'].intercalate (stack u names)) := by
  have hroot : (if isRelative path = false then ['/'] else []) =
      if (!isRelative path) = true then ['/'] else [] := by
    cases isRelative path <;> rfl
  rw [normalize_eq ((normalizeParts_moves path).trans hst), if_neg (stack_ne_nil hpos), hroot]

/-- Where `normalize` returns, its first loop has ended with a stack that is not empty. -/
theorem stack_of_normalize {path res : Str} (h : normalize path = .ok res) :
    ∃ u names, (∀ name ∈ names, IsName name) ∧ 0 < u+names.length ∧
      normalizeParts (behind path) false (stack (leading path) []) = .ok (stack u names) := by
  obtain ⟨parts2,hloop⟩ : ∃ parts2, normalizeParts (behind path) false (stack (leading path) []) =
      .ok parts2 := by
    obtain ⟨parts,hsplit,hmoves⟩ := split_moves path
    rw [normalize, hsplit, ok_bind] at h
    obtain ⟨parts2,hloop,-⟩ := bind_eq_ok.mp h
    rw [normalizeParts_filter, hmoves, normalizeParts_moves] at hloop
    exact ⟨parts2,hloop⟩
  obtain ⟨u,names,rfl,-,hn,-,-⟩ := normalizeParts_stack (fun part => behind_mem) (by simp) hloop
  refine ⟨u,names,hn,?_,hloop⟩
  by_contra hzero
  obtain ⟨rfl,hlen⟩ : u = 0 ∧ names.length = 0 := by omega
  obtain rfl := List.eq_nil_of_length_eq_zero hlen
  have hempty : stack 0 [] = [] := rfl
  rw [normalize_eq ((normalizeParts_moves path).trans hloop), if_pos hempty] at h
  cases h

/-- If the first loop leaves this stack, then the path is to these names, which are further up by
the ".."s that are missing, and what is returned is to the stack's. -/
theorem denote_of_stack {path : Str} {u : ℕ} {names : List Str} (hn : ∀ name ∈ names, IsName name)
    (hst : normalizeParts (behind path) false (stack (leading path) []) = .ok (stack u names)) :
    u ≤ leading path ∧
    denote path = ⟨!isRelative path,if (!isRelative path) = true then 0
      else leading path+(leading path-u),names⟩ ∧
    (0 < u+names.length → ∃ res, normalize path = .ok res ∧
      denote res = ⟨!isRelative path,if (!isRelative path) = true then 0 else u,names⟩) := by
  obtain ⟨v,names',hv,hle,hn',hrel,habs⟩ := normalizeParts_stack (fun part => behind_mem) (by simp) hst
  obtain ⟨rfl,rfl⟩ := stack_inj hn hn' hv
  refine ⟨hle,?_,?_⟩
  · rw [denote_eq]
    cases isRelative path with
    | true => exact hrel (leading path)
    | false => exact habs 0
  · intro hpos
    exact ⟨_,normalize_of_stack hpos hst,denote_stack hn hpos _⟩

/-- `normalize` returns a path to the same place exactly on the paths of `Normalizable`. -/
theorem normalize_iff (path : Str) :
    (∃ res, normalize path = .ok res ∧ denote res = denote path) ↔ Normalizable path := by
  have hnil : ∀ name ∈ ([] : List Str), IsName name := by simp
  apply Iff.trans _ (normalizeParts_iff (fun part => behind_mem) hnil)
  constructor
  · rintro ⟨res,hnorm,hsame⟩
    obtain ⟨u,names,hn,hpos,hloop⟩ := stack_of_normalize hnorm
    obtain ⟨hle,hplace,hres⟩ := denote_of_stack hn hloop
    obtain ⟨res',hnorm',hdenote⟩ := hres hpos
    obtain rfl := Except.ok.inj (hnorm.symm.trans hnorm')
    refine ⟨u,names,hloop,hn,hpos,?_⟩
    intro hrel
    rw [hdenote, hplace, hrel] at hsame
    have hups := congrArg Location.ups hsame
    simp only [Bool.false_eq_true, if_false] at hups
    omega
  · rintro ⟨u,names,hst,hn,hpos,hkept⟩
    obtain ⟨-,hplace,hres⟩ := denote_of_stack hn hst
    obtain ⟨res,hnorm,hdenote⟩ := hres hpos
    refine ⟨res,hnorm,?_⟩
    rw [hdenote, hplace]
    cases hrel : isRelative path with
    | true => rw [hkept (by rw [hrel]; rfl), Nat.sub_self]; rfl
    | false => rfl

/-- Of "." no part is left. -/
theorem normalize_changes_place : ¬∀ path : Str, ∃ res, normalize path = .ok res ∧
    denote res = denote path := by
  intro h
  obtain ⟨res,hres,-⟩ := h ['.']
  have hfault : normalize ['.'] = .error .nullDeref := rfl
  cases hfault.symm.trans hres

-- "a/../.." takes back more than there is, "../a/../../b" the ".." at its beginning
example : normalize ['a','/','.','.','/','.','.'] = .error .fatal := rfl

example : normalize ['.','.','/','a','/','.','.','/','.','.','/','b'] = .ok ['b'] := rfl

end Path

end JhCommon
