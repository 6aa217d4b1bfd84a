import JhCommon.KeyOrder
import JhCommon.JhListRuns
import JhCommon.LogBuffer

/-! The files that have registered with `logging.cpp`, in a list sorted by name, and the string of
their names that `logging_get_names` builds and keeps until the next registration. -/
namespace JhCommon
open LogBuffer Word32 KeyOrder Transition

/-- A C string, which ends before its first NUL. -/
abbrev FileName := {s : Str // NUL ∉ s}

/-- A registration, with the addresses of the file's categories and level. -/
structure FileData where
  filename : FileName
  cats : ℕ
  level : ℕ

structure Logging where
  firstRegister : Bool
  fileDataList : Option JhList
  jhLogNamesBuffer : Option Str
  heap : ListHeap FileData

/-- What `tolower` makes of a character. -/
def lower (c : Char) : ℕ := if 'A' ≤ c ∧ c ≤ 'Z' then c.toNat+32 else c.toNat

def strcasecmp : Str → Str → ℤ
  | [], [] => 0
  | [], d :: _ => 0-lower d
  | c :: _, [] => lower c
  | c :: s, d :: t => if lower c = lower d then strcasecmp s t else lower c-lower d

namespace Logging

def start : Logging :=
  { firstRegister := true, fileDataList := none, jhLogNamesBuffer := none, heap := CellHeap.empty }

def loggingInit (s : Logging) : Logging :=
  if s.firstRegister = false then s
  else
    let (list,heap) := JhList.create s.heap
    { s with firstRegister := false, fileDataList := some list, heap := heap }

/-- What `file_data_list` points at. -/
def files (s : Logging) : Exec JhList :=
  match s.fileDataList with
  | some list => .ok list
  | none => .error .nullDeref

/-- The loop of `register_logging` from iterator i on, and the push behind it. -/
def insertSorted (list : JhList) (node : FileData) :
    ℕ → Option ℕ → ListHeap FileData → Exec (ListHeap FileData)
  | fuel, i, h =>
    if i = list.iterEnd then list.pushBack h node
    else match fuel with
      | 0 => .error .outOfFuel
      | fuel+1 => do
        let file ← JhList.deref h i
        -- an equal name is passed by, so that equal ones stay as they came
        if strcasecmp file.filename.1 node.filename.1 > 0 then JhList.insertBefore h i node
        else do
          let i ← JhList.forward h i
          insertSorted list node fuel i h

def registerLogging (s : Logging) (node : FileData) : Exec Logging := do
  let s := if s.firstRegister then s.loggingInit else s
  let list ← s.files
  let i ← list.iterBegin s.heap
  let heap ← insertSorted list node (s.heap.made+1) i s.heap
  -- the buffer with the names is freed, since they have changed
  .ok { s with heap := heap, jhLogNamesBuffer := none }

/-- A write to the names. Behind the end of the buffer is the one place where it can go wrong. -/
def write (stored : Except LogFault Str) : Exec Str := stored.mapError fun _ => .outOfBounds

/-- The characters that malloc finds in the memory it returns. -/
def malloc (fill : ℕ → Char) (size : ℕ) : Str := (List.range size).map fill

/-- The body of the loop that fills the buffer at temp. -/
def writeName (file : FileData) (buf : Str) (temp : ℕ) : Exec (Str × ℕ) := do
  let buf ← write (storeString buf temp file.filename.1)
  let temp := temp+file.filename.1.length
  let buf ← write (store buf temp [' '])
  .ok (buf,temp+1)

def writeNames : List FileData → Str → ℕ → Exec (Str × ℕ)
  | [], buf, temp => .ok (buf,temp)
  | file :: files, buf, temp => do
    let (buf,temp) ← writeName file buf temp
    writeNames files buf temp

/-- The loop that figures the size out, in 32 bits. -/
def namesSize (files : List FileData) : ℕ :=
  files.foldl (fun size file => add32 size (file.filename.1.length+1)) 1

/-- The buffer for the names of these files. -/
def makeBuffer (fill : ℕ → Char) (files : List FileData) : Exec (Option Str) :=
  let size := namesSize files
  -- if no file in list yet
  if size = 1 then .ok none
  else do
    let (buf,temp) ← writeNames files (malloc fill size) 0
    let buf ← write (store buf (temp-1) [NUL])
    .ok (some buf)

/-- What `logging_get_names` does without a buffer. Both loops only read the list. -/
def buildNames (fill : ℕ → Char) (s : Logging) : Exec (Option Str × Logging) := do
  let list ← s.files
  let files ← list.forwards (s.heap.made+1) s.heap
  let buf ← makeBuffer fill files
  .ok (buf,{ s with jhLogNamesBuffer := buf })

def loggingGetNames (fill : ℕ → Char) (s : Logging) : Exec (Option Str × Logging) :=
  match s.jhLogNamesBuffer with
  | some buf => .ok (some buf,s)
  | none => s.buildNames fill

end Logging

/-- A call, with what is in the memory that malloc returns during it. -/
inductive LoggingOp
  | register (node : FileData)
  | getNames (fill : ℕ → Char)

inductive LoggingOut
  | done
  | names (buf : Option Str)
  deriving DecidableEq

def Logging.step (s : Logging) : LoggingOp → Exec (LoggingOut × Logging)
  | .register node => do
    let s ← s.registerLogging node
    .ok (.done,s)
  | .getNames fill => do
    let (buf,s) ← s.loggingGetNames fill
    .ok (.names buf,s)

/-- A name without the case of its letters. -/
def caseless (file : FileData) : List ℕ := file.filename.1.map lower

section Names
variable {c : Char} {s t : Str}

theorem lower_pos (hc : c ≠ NUL) : 0 < lower c := by
  have hpos : c.toNat ≠ 0 := fun hzero => hc (Char.toNat_inj.mp hzero)
  unfold lower
  split <;> omega

/-- Without NULs `strcasecmp` compares the names in the order of the dictionary. -/
theorem strcasecmp_pos (hs : NUL ∉ s) (ht : NUL ∉ t) : strcasecmp s t > 0 ↔ t.map lower < s.map lower := by
  induction s generalizing t with
  | nil =>
    cases t with
    | nil => simp [strcasecmp]
    | cons d t => simp [strcasecmp]
  | cons c s ih =>
    have hc := lower_pos (c := c) (by rintro rfl; simp at hs)
    cases t with
    | nil => simpa [strcasecmp] using hc
    | cons d t =>
      rw [strcasecmp, List.map_cons, List.map_cons, List.cons_lt_cons_iff]
      by_cases heq : lower c = lower d
      · rw [if_pos heq, ih (List.not_mem_of_not_mem_cons hs) (List.not_mem_of_not_mem_cons ht)]
        simp [heq]
      · rw [if_neg heq]
        omega

end Names

/-- The names with a space behind each of them. -/
def spaced (files : List FileData) : Str := files.flatMap fun file => file.filename.1 ++ [' ']

/-- The names with single spaces between them. -/
def joined (files : List FileData) : Str := [' '].intercalate (files.map fun file => file.filename.1)

/-- The bytes for the names with a character behind each of them, and for one more. -/
def storage (files : List FileData) : ℕ := (spaced files).length+1

section Names
variable {files : List FileData} {file : FileData} {buf w r : Str} {temp : ℕ} {fill : ℕ → Char}

@[simp] theorem spaced_nil : spaced [] = [] := rfl

@[simp] theorem spaced_cons :
    spaced (file :: files) = file.filename.1 ++ [' '] ++ spaced files := by simp [spaced]

theorem spaced_eq (hne : files ≠ []) : spaced files = joined files ++ [' '] := by
  induction files with
  | nil => exact absurd rfl hne
  | cons file files ih =>
    cases files with
    | nil => simp [joined, List.intercalate]
    | cons next files =>
      rw [spaced_cons, ih (List.cons_ne_nil _ _)]
      simp [joined, List.intercalate]

theorem foldl_size (files : List FileData) (n : ℕ) :
    files.foldl (fun size file => add32 size (file.filename.1.length+1)) (n % 2^32) =
      (n+(spaced files).length) % 2^32 := by
  induction files generalizing n with
  | nil => rfl
  | cons file files ih =>
    rw [List.foldl_cons, add32_mod, ih, spaced_cons]
    congr 1
    simp only [List.length_append, List.length_singleton]
    omega

/-- The size is that of the storage, as far as 32 bits hold it. -/
theorem namesSize_eq (files : List FileData) : Logging.namesSize files = storage files % 2^32 := by
  have hsize := foldl_size files 1
  rwa [Nat.add_comm] at hsize

theorem writeName_ok (hbuf : buf = w ++ r) (htemp : temp = w.length)
    (hroom : file.filename.1.length < r.length) :
    Logging.writeName file buf temp = .ok (w ++ (file.filename.1 ++ [' ']) ++ r.drop (file.filename.1.length+1),
      (w ++ (file.filename.1 ++ [' '])).length) := by
  have hspace : store (w ++ file.filename.1 ++ NUL :: r.drop (file.filename.1.length+1))
      (temp+file.filename.1.length) [' '] =
        .ok (w ++ file.filename.1 ++ [' '] ++ r.drop (file.filename.1.length+1)) := by
    apply store_ok rfl
    · rw [List.length_append, htemp]
    · simp
  simp only [Logging.writeName, storeString_ok hbuf htemp hroom, Logging.write, Except.mapError, ok_bind, hspace]
  simp [htemp, Nat.add_assoc]

theorem writeName_room (hbuf : buf = w ++ r) (htemp : temp = w.length) {res : Str × ℕ}
    (h : Logging.writeName file buf temp = .ok res) : file.filename.1.length < r.length := by
  by_contra hroom
  have herror : storeString buf temp file.filename.1 = .error .outOfBounds := by
    apply store_error
    rw [hbuf, htemp, List.length_append, List.length_append, List.length_singleton]
    omega
  simp only [Logging.writeName, herror, Logging.write, Except.mapError, error_bind] at h
  cases h

/-- The names go into a buffer one behind the other. -/
theorem writeNames_ok (hbuf : buf = w ++ r) (htemp : temp = w.length) (hroom : (spaced files).length ≤ r.length) :
    Logging.writeNames files buf temp = .ok (w ++ spaced files ++ r.drop (spaced files).length,
      (w ++ spaced files).length) := by
  induction files generalizing buf w r temp with
  | nil => simp [Logging.writeNames, hbuf, htemp]
  | cons file files ih =>
    rw [spaced_cons] at hroom ⊢
    simp only [List.length_append, List.length_singleton] at hroom
    rw [Logging.writeNames, writeName_ok hbuf htemp (by omega), ok_bind]
    simp only
    rw [ih rfl rfl (by rw [List.length_drop]; omega)]
    simp only [List.append_assoc, List.drop_drop, List.length_append, List.length_singleton, Nat.add_assoc]

/-- They do only if there is room for all of them. -/
theorem writeNames_room (hbuf : buf = w ++ r) (htemp : temp = w.length) {res : Str × ℕ}
    (h : Logging.writeNames files buf temp = .ok res) : (spaced files).length ≤ r.length := by
  induction files generalizing buf w r temp with
  | nil => exact Nat.zero_le _
  | cons file files ih =>
    rw [Logging.writeNames] at h
    obtain ⟨st,hname,hnames⟩ := bind_eq_ok.mp h
    -- the first name has had room, and what it leaves has room for the others
    have hroom := writeName_room hbuf htemp hname
    obtain rfl := Except.ok.inj ((writeName_ok hbuf htemp hroom).symm.trans hname)
    have hrest := ih rfl rfl hnames
    rw [List.length_drop] at hrest
    rw [spaced_cons, List.length_append, List.length_append, List.length_singleton]
    omega

end Names

/-- What is returned says the names of these files. -/
def LoggingOut.Lists (files : List FileData) : LoggingOut → Prop
  | .names none => files = []
  | .names (some buf) => files ≠ [] ∧ joined files ++ [NUL] <+: buf
  | .done => False

namespace LoggingOp

/-- The registrations after a call. -/
def after (regs : List FileData) : LoggingOp → List FileData
  | register node => regs ++ [node]
  | getNames _ => regs

/-- A call registers a file, or returns the names in the order of the sorted list. -/
def Means (regs : List FileData) (op : LoggingOp) (o : LoggingOut) (regs' : List FileData) : Prop :=
  regs' = op.after regs ∧ match op with
    | register _ => o = .done
    | getNames _ => ∀ files, Arranges caseless files regs → o.Lists files

/-- When the names are asked for there are some, and 32 bits can say how large they are. -/
def Answers (regs : List FileData) : LoggingOp → Prop
  | register _ => True
  | getNames _ => regs ≠ [] ∧ storage regs < 2^32

end LoggingOp

namespace Logging
variable {s s' : Logging} {regs : List FileData} {list : JhList} {h : ListHeap FileData}
  {ys zs xs : List (ℕ × FileData)} {node : FileData} {fill : ℕ → Char}

/-- The list has each registration once, sorted by name without case, and equal names as they came. There
is none before the first registration. -/
def Refines (s : Logging) (regs : List FileData) : Prop :=
  s.firstRegister = true ∧ s.fileDataList = none ∧ regs = [] ∨
    s.firstRegister = false ∧ regs ≠ [] ∧ ∃ list xs, s.fileDataList = some list ∧ list.Holds s.heap xs ∧
      Arranges caseless (xs.map Prod.snd) regs

/-- A buffer that is kept has the names of now. -/
structure Coherent (s : Logging) (regs : List FileData) : Prop where
  refines : s.Refines regs
  cached : ∀ buf, s.jhLogNamesBuffer = some buf → regs ≠ [] ∧ storage regs < 2^32 ∧
    ∀ files, Arranges caseless files regs → joined files ++ [NUL] <+: buf

theorem insertSorted_stop (fuel : ℕ) : insertSorted list node fuel list.iterEnd h = list.pushBack h node := by
  cases fuel <;> rw [insertSorted, if_pos rfl]

/-- From an iterator with no greater name in front of it the loop inserts behind all of these. -/
theorem insertSorted_ok (hs : list.Holds h (ys ++ zs)) {fuel : ℕ} (hfuel : zs.length ≤ fuel)
    (hsorted : (zs.map Prod.snd).Pairwise fun a b => caseless a ≤ caseless b)
    (hys : ∀ f ∈ ys.map Prod.snd, caseless f ≤ caseless node) :
    ∃ h' ys' zs', insertSorted list node fuel (some (list.first zs)) h = .ok h' ∧ ys ++ zs = ys' ++ zs' ∧
      list.Holds h' (ys' ++ (h.made,node) :: zs') ∧
      (∀ f ∈ ys'.map Prod.snd, caseless f ≤ caseless node) ∧
      ∀ f ∈ zs'.map Prod.snd, caseless node < caseless f := by
  -- on what stands from the iterator on; what is behind it holds no greater name
  induction zs generalizing ys fuel with
  | nil =>
    obtain ⟨h',hpush,he⟩ := JhList.pushBack_edits hs node
    have hstop : some (list.first ([] : List (ℕ × FileData))) = list.iterEnd := rfl
    rw [hstop, insertSorted_stop, hpush]
    exact ⟨h',ys,[],rfl,rfl,by simpa using he.holds,hys,by simp⟩
  | cons z zs ih =>
    obtain ⟨fuel,rfl⟩ := Nat.exists_eq_add_one_of_ne_zero (Nat.ne_zero_of_lt hfuel)
    have hgoes : some (list.first (z :: zs)) ≠ list.iterEnd := by
      intro heq
      exact hs.apart (JhList.mem_nodes.mpr (.inr (.inr (Option.some.inj heq))))
    have hcompare := strcasecmp_pos z.2.filename.2 node.filename.2
    have hderef : JhList.deref h (some (list.first (z :: zs))) = .ok z.2 := JhList.deref_ok hs (by simp)
    rw [insertSorted, if_neg hgoes, hderef, ok_bind]
    by_cases hpos : strcasecmp z.2.filename.1 node.filename.1 > 0
    · -- the first greater name, and so those behind it are greater
      obtain ⟨h',hinsert,he⟩ := JhList.insertBefore_edits hs node
      rw [if_pos hpos, hinsert]
      exact ⟨h',ys,z :: zs,rfl,rfl,he.holds,hys,lt_of_head hsorted (hcompare.mp hpos)⟩
    · have hs' : list.Holds h ((ys ++ [z]) ++ zs) := by rwa [List.append_assoc]
      have hmove := JhList.forward_last hs'
      rw [JhList.last_concat] at hmove
      have hle : caseless z.2 ≤ caseless node := not_lt.mp (hcompare.not.mp hpos)
      have hys' : ∀ f ∈ (ys ++ [z]).map Prod.snd, caseless f ≤ caseless node := by
        intro f hf
        rw [List.map_append, List.mem_append] at hf
        rcases hf with hf | hf
        · exact hys f hf
        · rw [List.mem_singleton.mp hf]
          exact hle
      obtain ⟨h',ys',zs',hinsert,hsplit,hrest⟩ := ih hs' (Nat.le_of_succ_le_succ hfuel) hsorted.of_cons hys'
      rw [if_neg hpos, show list.first (z :: zs) = z.1 from rfl, hmove, ok_bind, hinsert]
      exact ⟨h',ys',zs',rfl,by simpa using hsplit,hrest⟩

theorem malloc_length (fill : ℕ → Char) (size : ℕ) : (malloc fill size).length = size := by
  rw [malloc, List.length_map, List.length_range]

/-- What 32 bits can count has room for the names. The last space makes way for the NUL. -/
theorem makeBuffer_ok {files : List FileData} (hne : files ≠ []) (hlt : storage files < 2^32) (fill : ℕ → Char) :
    ∃ buf, makeBuffer fill files = .ok (some buf) ∧ joined files ++ [NUL] <+: buf := by
  have hspaced := spaced_eq hne
  have hlen : (spaced files).length = (joined files).length+1 := by rw [hspaced]; simp
  have hroom : (spaced files).length ≤ (malloc fill (storage files)).length := by
    rw [malloc_length, storage]
    omega
  obtain ⟨r,hr⟩ : ∃ r, (malloc fill (storage files)).drop (spaced files).length = r := ⟨_,rfl⟩
  have hwrite : writeNames files (malloc fill (storage files)) 0 =
      .ok (spaced files ++ r,(spaced files).length) := by
    rw [writeNames_ok (List.nil_append _).symm List.length_nil.symm hroom, hr]
    rfl
  have hstore : store (spaced files ++ r) ((spaced files).length-1) [NUL] =
      .ok (joined files ++ [NUL] ++ ([' '] ++ r).drop [NUL].length) := by
    apply store_ok
    · rw [hspaced, List.append_assoc]
    · omega
    · simp
  simp only [makeBuffer, namesSize_eq, Nat.mod_eq_of_lt hlt]
  rw [if_neg (by rw [storage]; omega), hwrite, ok_bind]
  simp only [hstore, write, Except.mapError, ok_bind]
  exact ⟨_,rfl,List.prefix_append _ _⟩

/-- More than that is not written, for lack of room. -/
theorem makeBuffer_room {files : List FileData} {buf : Str} (hmake : makeBuffer fill files = .ok (some buf)) :
    storage files < 2^32 := by
  simp only [makeBuffer, namesSize_eq] at hmake
  split_ifs at hmake with hsize
  · cases Except.ok.inj hmake
  · -- a size that has wrapped is less than what was written
    obtain ⟨st,hwrite,-⟩ := bind_eq_ok.mp hmake
    have hroom := writeNames_room (List.nil_append _).symm List.length_nil.symm hwrite
    rw [malloc_length] at hroom
    rw [storage] at *
    omega

theorem buildNames_eq (hlist : s.fileDataList = some list) (hs : list.Holds s.heap xs) (fill : ℕ → Char) :
    s.buildNames fill =
      makeBuffer fill (xs.map Prod.snd) >>= fun buf => .ok (buf,{ s with jhLogNamesBuffer := buf }) := by
  have hlen := hs.length_le
  simp only [buildNames, files, hlist, ok_bind, JhList.forwards_eq hs (show xs.length ≤ s.heap.made+1 by omega)]

/-- A registration goes to where it belongs in the list of those before. -/
theorem insert_arranges (hs : list.Holds h xs) (ha : Arranges caseless (xs.map Prod.snd) regs) (node : FileData) :
    ∃ i h' xs', list.iterBegin h = .ok i ∧ insertSorted list node (h.made+1) i h = .ok h' ∧
      list.Holds h' xs' ∧ Arranges caseless (xs'.map Prod.snd) (regs ++ [node]) := by
  have hlen := hs.length_le
  have hs' : list.Holds h ([] ++ xs) := hs
  have hnil : ∀ f ∈ ([] : List (ℕ × FileData)).map Prod.snd, caseless f ≤ caseless node := by simp
  obtain ⟨h',ys',zs',hinsert,hsplit,hs₁,hys,hzs⟩ := insertSorted_ok hs' (show xs.length ≤ h.made+1 by omega)
    ha.sorted hnil
  refine ⟨_,h',_,JhList.iterBegin_ok hs,hinsert,hs₁,?_⟩
  rw [← List.nil_append xs, hsplit, List.map_append] at ha
  rw [List.map_append, List.map_cons]
  exact ha.insert hys hzs

theorem registerLogging_ok (hr : s.Refines regs) (node : FileData) :
    ∃ s', s.registerLogging node = .ok s' ∧ s'.Refines (regs ++ [node]) ∧ s'.jhLogNamesBuffer = none := by
  rcases hr with ⟨hfirst,-,rfl⟩ | ⟨hfirst,-,list,xs,hlist,hs,ha⟩
  · -- the list is made for the first one
    obtain ⟨i,h',xs',hbegin,hinsert,hs',ha'⟩ := insert_arranges (JhList.create_holds s.heap)
      arranges_nil node
    have hinit : s.loggingInit =
        ⟨false,some (JhList.create s.heap).1,s.jhLogNamesBuffer,(JhList.create s.heap).2⟩ := by
      rw [loggingInit, if_neg (by simp [hfirst])]
    rw [registerLogging, if_pos hfirst, hinit]
    simp only [files, ok_bind, hbegin, hinsert]
    exact ⟨_,rfl,.inr ⟨rfl,by simp,_,xs',rfl,hs',ha'⟩,rfl⟩
  · obtain ⟨i,h',xs',hbegin,hinsert,hs',ha'⟩ := insert_arranges hs ha node
    rw [registerLogging, if_neg (by simp [hfirst])]
    simp only [files, hlist, ok_bind, hbegin, hinsert]
    exact ⟨_,rfl,.inr ⟨hfirst,by simp,list,xs',rfl,hs',ha'⟩,rfl⟩

theorem storage_perm {files files' : List FileData} (hp : files.Perm files') : storage files = storage files' :=
  congrArg (·+1) (hp.flatMap_right _).length_eq

theorem Coherent.getNames (hc : s.Coherent regs) (hne : regs ≠ []) (hlt : storage regs < 2^32) (fill : ℕ → Char) :
    ∃ o s', s.step (.getNames fill) = .ok (o,s') ∧ (LoggingOp.getNames fill).Means regs o regs ∧
      s'.Coherent regs := by
  have hsome : ∀ files, Arranges caseless files regs → files ≠ [] := by
    rintro files hfiles rfl
    exact hne hfiles.perm.nil_eq.symm
  simp only [step, loggingGetNames]
  cases hbuf : s.jhLogNamesBuffer with
  | some buf => exact ⟨_,_,rfl,⟨rfl,fun files ha => ⟨hsome files ha,(hc.cached buf hbuf).2.2 files ha⟩⟩,hc⟩
  | none =>
    obtain ⟨-,-,rfl⟩ | ⟨hfirst,-,list,xs,hlist,hs,ha⟩ := hc.refines
    · exact absurd rfl hne
    · obtain ⟨buf,hmake,hpre⟩ := makeBuffer_ok (hsome _ ha) (storage_perm ha.perm ▸ hlt) fill
      have hnames : ∀ files, Arranges caseless files regs → joined files ++ [NUL] <+: buf := by
        intro files hfiles
        -- sorted without case and stable, they stand in one order only
        rw [hfiles.unique ha]
        exact hpre
      simp only [buildNames_eq hlist hs, hmake, ok_bind]
      refine ⟨_,_,rfl,⟨rfl,fun files hfiles => ⟨hsome files hfiles,hnames files hfiles⟩⟩,
        .inr ⟨hfirst,hne,list,xs,hlist,hs,ha⟩,?_⟩
      rintro _ ⟨⟩
      exact ⟨hne,hlt,hnames⟩

theorem Coherent.register (hc : s.Coherent regs) (node : FileData) :
    ∃ o s', s.step (.register node) = .ok (o,s') ∧
      (LoggingOp.register node).Means regs o (regs ++ [node]) ∧ s'.Coherent (regs ++ [node]) := by
  obtain ⟨s',hregister,hr,hnone⟩ := registerLogging_ok hc.refines node
  simp only [step, hregister, ok_bind]
  refine ⟨_,s',rfl,⟨rfl,rfl⟩,hr,?_⟩
  -- the buffer was freed, and so none is kept that lacks the new name
  intro buf hbuf
  rw [hnone] at hbuf
  cases hbuf

/-- Names that are returned are those of some file, and 32 bits could count them. -/
theorem Coherent.answers (hc : s.Coherent regs) {o : LoggingOut} (hstep : s.step (.getNames fill) = .ok (o,s'))
    (hmeans : (LoggingOp.getNames fill).Means regs o regs) : regs ≠ [] ∧ storage regs < 2^32 := by
  simp only [step] at hstep
  obtain ⟨⟨buf,s₁⟩,hget,hout⟩ := bind_eq_ok.mp hstep
  obtain ⟨rfl,rfl⟩ := Prod.mk.inj (Except.ok.inj hout)
  rw [loggingGetNames] at hget
  cases hbuf : s.jhLogNamesBuffer with
  | some kept => exact ⟨(hc.cached kept hbuf).1,(hc.cached kept hbuf).2.1⟩
  | none =>
    rw [hbuf] at hget
    obtain ⟨-,hlist,-⟩ | ⟨-,hne,list,xs,hlist,hs,ha⟩ := hc.refines
    · simp only [buildNames, files, hlist, error_bind] at hget
      cases hget
    · have hlists := hmeans.2 _ ha
      simp only [buildNames_eq hlist hs] at hget
      obtain ⟨made,hmake,heq⟩ := bind_eq_ok.mp hget
      obtain ⟨rfl,-⟩ := Prod.mk.inj (Except.ok.inj heq)
      cases made with
      | none =>
        -- a size that has wrapped to 1, as if nothing were registered
        rw [show xs.map Prod.snd = [] from hlists] at ha
        exact absurd ha.perm.nil_eq.symm hne
      | some buf => exact ⟨hne,storage_perm ha.perm ▸ makeBuffer_room hmake⟩

theorem start_coherent : start.Coherent [] := by
  refine ⟨.inl ⟨rfl,rfl,rfl⟩,?_⟩
  rintro buf ⟨⟩

/-- The registry stays sorted and says its names whenever it is asked, in the runs that ask when there is a
name and 32 bits can count the names that there are, and in no others. -/
theorem registry_iff (ops : List LoggingOp) :
    Simulated step LoggingOp.Means Refines start [] ops ↔ GuardedBy LoggingOp.after LoggingOp.Answers [] ops := by
  apply simulated_iff_guardedBy LoggingOp.after LoggingOp.Answers _ _ _ _ start_coherent
  · exact fun s regs hc => hc.refines
  · exact fun regs op o regs' hmeans => hmeans.1
  · intro s regs op hc hanswers
    cases op with
    | register node => exact hc.register node
    | getNames fill => exact hc.getNames hanswers.1 hanswers.2 fill
  · intro s regs op o s' hc hstep hmeans
    cases op with
    | register node => trivial
    | getNames fill => exact hc.answers hstep hmeans

/-- The second of two files comes first, since case does not count. The last place of the buffer is not
used. -/
example : (run step start [.register ⟨⟨['b'],by decide⟩,100,104⟩,.register ⟨⟨['A'],by decide⟩,200,204⟩,
    .getNames fun _ => 'x']).map Prod.fst = .ok [.done,.done,.names (some ['A',' ','b',NUL,'x'])] := by
  decide +kernel

/-- Who asks before anything is registered gets no answer. -/
theorem asked_first_not_answered :
    ¬Simulated step LoggingOp.Means Refines start [] [.getNames fun _ => 'x'] := by
  rintro ⟨-,o,s',regs,hstep,-⟩
  cases hstep

end Logging

end JhCommon
