import JhCommon.Exec
import JhCommon.Transition

/-! The modules of `ComponentManager.cpp`. A library is known by the handle that `dlopen` returns for
it, and its module by what `JHCOM_GetModule` returns, which is not NULL. The services are left out,
and with them what a module does when its components are loaded and unloaded. -/
namespace JhCommon
open Transition

inductive ErrorCode
  | kNoError
  | kNoInterface
  | kNoClass
  | kNoFactory
  | kLoadFailed
  deriving DecidableEq

structure ModuleInfo (M H : Type) where
  mName : String
  mModule : Option M
  mHandle : H

/-- What is done to a module or to a library. -/
inductive ModuleEvent (M H : Type)
  | addRef (mod : M)
  | release (mod : M)
  | dlclose (handle : H)
  deriving DecidableEq

/-- The pointers in mModules, with the ModuleInfo that each points at. The log says what has been done
for which of them, and an address is not used twice. -/
structure ComponentManager (M H : Type) where
  mModules : List (ℕ × ModuleInfo M H)
  made : ℕ
  log : List (ℕ × ModuleEvent M H)
  destroyed : Bool

/-- A load comes with what the library is, and what its entry point returns. -/
inductive ModuleOp (M H : Type)
  | loadLibrary (name : String) (entry : ErrorCode) (mod : M) (handle : H)
  | removeModule (name : String)
  | unloadLibrary (cid : String)
  | destroy

namespace ComponentManager
variable {M H : Type}

def start : ComponentManager M H := ⟨[],0,[],false⟩

def getModInfo (s : ComponentManager M H) (name : String) : Option (ℕ × ModuleInfo M H) :=
  s.mModules.find? fun e => e.2.mName = name

def getModule (s : ComponentManager M H) (name : String) : Option M :=
  (s.getModInfo name).bind fun e => e.2.mModule

/-- `ModuleInfo::operator==( CID & )`. -/
def isCid (getCID : M → String) (info : ModuleInfo M H) (cid : String) : Bool :=
  match info.mModule with
  | none => false
  | some mod => cid = getCID mod

def loadLibrary (s : ComponentManager M H) (name : String) (entry : ErrorCode) (mod : M) (handle : H) :
    ErrorCode × ComponentManager M H :=
  if entry = .kNoError then
    (.kNoError,{ s with
      mModules := s.mModules ++ [(s.made,⟨name,some mod,handle⟩)]
      made := s.made+1
      log := s.log ++ [(s.made,.addRef mod)] })
  else (entry,s)

def removeModule (s : ComponentManager M H) (name : String) : ErrorCode × ComponentManager M H :=
  match s.getModInfo name with
  | none => (.kNoClass,s)
  | some (a,info) =>
    -- the entry stays in the list, with a NULL module
    match info.mModule with
    | none => (.kNoClass,s)
    | some mod =>
      (.kNoError,{ s with
        mModules := s.mModules.map fun e => if e.1 = a then (a,{ info with mModule := none }) else e
        log := s.log ++ [(a,.release mod)] })

def unloadLibrary (getCID : M → String) (s : ComponentManager M H) (cid : String) :
    ErrorCode × ComponentManager M H :=
  match s.mModules.find? fun e => isCid getCID e.2 cid with
  | none => (.kNoClass,s)
  -- no Release here: the module's reference goes with the entry
  | some (a,info) =>
    (.kNoError,{ s with
      mModules := s.mModules.eraseP fun e => isCid getCID e.2 cid
      log := s.log ++ [(a,.dlclose info.mHandle)] })

/-- The loop of the destructor. -/
def releaseAll : List (ℕ × ModuleInfo M H) → List (ℕ × ModuleEvent M H) →
    Exec (List (ℕ × ModuleEvent M H))
  | [], log => .ok log
  | (a,info) :: rest, log =>
    -- unlike the other functions the destructor does not look for NULL
    match info.mModule with
    | none => .error .nullDeref
    | some mod => releaseAll rest (log ++ [(a,.release mod)])

/-- The destructor returns nothing. -/
def step (getCID : M → String) (s : ComponentManager M H) :
    ModuleOp M H → Exec (Option ErrorCode × ComponentManager M H)
  | .loadLibrary name entry mod handle =>
    let (res,s) := s.loadLibrary name entry mod handle
    .ok (some res,s)
  | .removeModule name =>
    let (res,s) := s.removeModule name
    .ok (some res,s)
  | .unloadLibrary cid =>
    let (res,s) := s.unloadLibrary getCID cid
    .ok (some res,s)
  | .destroy => do
    let log ← releaseAll s.mModules s.log
    .ok (none,{ s with mModules := [], log := log, destroyed := true })

/-- Nothing is called after the destructor. -/
def Admits (s : ComponentManager M H) (_ : ModuleOp M H) : Prop := s.destroyed = false

/-- Calls of `UnloadLibrary` after which the library of an entry is closed. -/
def Unloadable (getCID : M → String) (s : ComponentManager M H) (a : ℕ) : Prop :=
  ∃ (cids : List String) (os : List (Option ErrorCode)) (s' : ComponentManager M H),
    run (step getCID) s (cids.map ModuleOp.unloadLibrary) = .ok (os,s') ∧
    ∃ handle, (a,.dlclose handle) ∈ s'.log

/-- No module is removed, and no library unloaded. -/
def Kept (getCID : M → String) (s : ComponentManager M H) : ModuleOp M H → Prop
  | .removeModule name => s.getModule name = none
  | .unloadLibrary cid => ∀ e ∈ s.mModules, isCid getCID e.2 cid = false
  | .loadLibrary _ _ _ _ | .destroy => True

section Safety
variable [DecidableEq M] [DecidableEq H]

/-- What a module and its library may have been through. -/
structure Safe (getCID : M → String) (s : ComponentManager M H) : Prop where
  once : ∀ a mod, s.log.count (a,.addRef mod) ≤ 1
  balanced : ∀ a mod, s.log.count (a,.release mod) ≤ s.log.count (a,.addRef mod)
  released : s.destroyed = true → ∀ a mod, s.log.count (a,.release mod) = s.log.count (a,.addRef mod)
  closed : ∀ l r a handle, s.log = l ++ (a,.dlclose handle) :: r → ∃ mod, (a,.release mod) ∈ l
  unloadable : ∀ e ∈ s.mModules, e.2.mModule = none → s.Unloadable getCID e.1

end Safety

section Removed
variable {getCID : M → String} {s s' : ComponentManager M H} {a : ℕ} {cid : String}

/-- The library at an address has not been closed, and there is no module by which it would be
found. -/
structure Stuck (s : ComponentManager M H) (a : ℕ) : Prop where
  gone : ∀ e ∈ s.mModules, e.1 = a → e.2.mModule = none
  kept : ∀ handle, (a,.dlclose handle) ∉ s.log

theorem Stuck.unload (hs : s.Stuck a) : (s.unloadLibrary getCID cid).2.Stuck a := by
  rw [unloadLibrary]
  split
  · exact hs
  · rename_i b info hfind
    have hcid : isCid getCID info cid = true := by simpa using List.find?_some hfind
    -- a NULL module has no CID to be found by
    have hba : b ≠ a := by
      rintro rfl
      have hnone : info.mModule = none := hs.gone _ (List.mem_of_find?_eq_some hfind) rfl
      simp [isCid, hnone] at hcid
    refine ⟨fun e he => hs.gone e (List.mem_of_mem_eraseP he),?_⟩
    intro handle hmem
    rcases List.mem_append.mp hmem with hold | hnew
    · exact hs.kept handle hold
    · exact hba (congrArg Prod.fst (List.mem_singleton.mp hnew)).symm

theorem Stuck.not_unloadable (hs : s.Stuck a) : ¬s.Unloadable getCID a := by
  rintro ⟨cids,os,s',hrun,handle,hclosed⟩
  have hstuck : s'.Stuck a := by
    have hguard : Guarded (step getCID) (fun _ op => ∃ cid, op = .unloadLibrary cid) s
        (cids.map ModuleOp.unloadLibrary) := by
      apply guarded_of_all
      intro op hop _
      obtain ⟨cid,-,rfl⟩ := List.mem_map.mp hop
      exact ⟨cid,rfl⟩
    apply hguard.keeps _ hs hrun
    rintro s _ o s' hs ⟨cid,rfl⟩ hstep
    obtain ⟨-,rfl⟩ := Prod.mk.inj (Except.ok.inj hstep)
    exact hs.unload
  exact hstuck.kept handle hclosed

end Removed

section Sound
variable {getCID : M → String} {s s' : ComponentManager M H} {ms : List (ℕ × M)} {a : ℕ}
  {op : ModuleOp M H}

def addRefs (ms : List (ℕ × M)) : List (ℕ × ModuleEvent M H) := ms.map fun x => (x.1,.addRef x.2)

def releases (ms : List (ℕ × M)) : List (ℕ × ModuleEvent M H) := ms.map fun x => (x.1,.release x.2)

/-- What has been loaded is there, and nothing else has been done to it. -/
structure Loaded (s : ComponentManager M H) (ms : List (ℕ × M)) : Prop where
  modules : s.mModules.map (fun e => (e.1,e.2.mModule)) = ms.map fun x => (x.1,some x.2)
  log : s.log = addRefs ms
  addresses : ms.map Prod.fst = List.range s.made

/-- The modules have been loaded, and at the end they have been released. -/
inductive Sound (s : ComponentManager M H) : Prop
  | loaded (ms : List (ℕ × M)) (alive : s.destroyed = false) (h : s.Loaded ms)
  | gone (ms : List (ℕ × M)) (dead : s.destroyed = true) (none : s.mModules = [])
      (log : s.log = addRefs ms ++ releases ms) (nodup : ms.Nodup)

theorem Loaded.nodup (hs : s.Loaded ms) : ms.Nodup := by
  apply List.Nodup.of_map Prod.fst
  rw [hs.addresses]
  exact List.nodup_range

theorem Loaded.some_module (hs : s.Loaded ms) {e : ℕ × ModuleInfo M H} (he : e ∈ s.mModules) :
    ∃ mod, e.2.mModule = some mod := by
  have hmem : (e.1,e.2.mModule) ∈ ms.map fun x => (x.1,some x.2) := by
    rw [← hs.modules]
    exact List.mem_map_of_mem he
  obtain ⟨x,-,hx⟩ := List.mem_map.mp hmem
  exact ⟨x.2,(congrArg Prod.snd hx).symm⟩

/-- The destructor releases every module. -/
theorem releaseAll_ok {mods : List (ℕ × ModuleInfo M H)} (log : List (ℕ × ModuleEvent M H))
    (hmods : mods.map (fun e => (e.1,e.2.mModule)) = ms.map fun x => (x.1,some x.2)) :
    releaseAll mods log = .ok (log ++ releases ms) := by
  induction mods generalizing ms log with
  | nil =>
    obtain rfl : ms = [] := List.map_eq_nil_iff.mp hmods.symm
    simp [releaseAll, releases]
  | cons e mods ih =>
    cases ms with
    | nil => cases hmods
    | cons x ms =>
      obtain ⟨hhead,htail⟩ := List.cons.inj hmods
      obtain ⟨haddr,hmod⟩ := Prod.mk.inj hhead
      rw [releaseAll, hmod]
      simp only [ih _ htail, haddr]
      simp [releases]

theorem start_sound : (start : ComponentManager M H).Sound := .loaded [] rfl ⟨rfl,rfl,rfl⟩

theorem getModInfo_some (hs : s.Loaded ms) {name : String} {e : ℕ × ModuleInfo M H}
    (he : s.getModInfo name = some e) : ∃ mod, e.2.mModule = some mod ∧ s.getModule name = some mod := by
  obtain ⟨mod,hmod⟩ := hs.some_module (List.mem_of_find?_eq_some he)
  exact ⟨mod,hmod,by rw [getModule, he, Option.bind_some, hmod]⟩

/-- A guarded call leaves nothing behind but what has been loaded. -/
theorem Sound.step (hs : s.Sound) (ha : s.Admits op) (hok : s.Kept getCID op) :
    ∃ o s', step getCID s op = .ok (o,s') ∧ s'.Sound := by
  cases hs with
  | gone ms dead => exact absurd (dead.symm.trans ha) Bool.true_eq_false.mp
  | loaded ms alive h =>
    cases op with
    | loadLibrary name entry mod handle =>
      by_cases hentry : entry = .kNoError
      · refine ⟨some .kNoError,_,by rw [ComponentManager.step, loadLibrary, if_pos hentry],?_⟩
        refine .loaded (ms ++ [(s.made,mod)]) alive ⟨?_,?_,?_⟩
        · simp [h.modules]
        · simp [h.log, addRefs]
        · simp [h.addresses, List.range_succ]
      · exact ⟨some entry,s,by rw [ComponentManager.step, loadLibrary, if_neg hentry],.loaded ms alive h⟩
    -- the guard says that no module has the name, so nothing is removed
    | removeModule name =>
      have hnone : s.getModInfo name = none := by
        rw [Option.eq_none_iff_forall_ne_some]
        intro e he
        obtain ⟨mod,-,hmod⟩ := getModInfo_some h he
        exact Option.some_ne_none mod (hmod.symm.trans hok)
      refine ⟨some .kNoClass,s,?_,.loaded ms alive h⟩
      rw [ComponentManager.step, ComponentManager.removeModule, hnone]
    | unloadLibrary cid =>
      have hnone : s.mModules.find? (fun e => isCid getCID e.2 cid) = none := by
        rw [List.find?_eq_none]
        intro e he
        rw [hok e he]
        exact Bool.false_ne_true
      refine ⟨some .kNoClass,s,?_,.loaded ms alive h⟩
      rw [ComponentManager.step, ComponentManager.unloadLibrary, hnone]
    | destroy =>
      have hlog := releaseAll_ok s.log h.modules
      refine ⟨none,⟨[],s.made,s.log ++ releases ms,true⟩,?_,.gone ms rfl rfl ?_ h.nodup⟩
      · rw [ComponentManager.step, hlog, ok_bind]
      · exact congrArg (· ++ releases ms) h.log

/-- A module that is removed leaves a library that nothing closes. -/
theorem removed_stuck (hs : s.Loaded ms) {name : String} {mod : M} (hmod : s.getModule name = some mod) :
    ∃ a, (s.removeModule name).2.Stuck a ∧
      ∃ e ∈ (s.removeModule name).2.mModules, e.1 = a ∧ e.2.mModule = none := by
  obtain ⟨⟨a,info⟩,hinfo,hinfomod⟩ := Option.bind_eq_some_iff.mp hmod
  have hmem := List.mem_of_find?_eq_some hinfo
  have hinfomod' : info.mModule = some mod := hinfomod
  -- the entry is there, and what it loses is the module
  have hremove : s.removeModule name = (.kNoError,{ s with
      mModules := s.mModules.map fun e => if e.1 = a then (a,{ info with mModule := none }) else e
      log := s.log ++ [(a,.release mod)] }) := by
    rw [ComponentManager.removeModule, hinfo]
    simp only [hinfomod']
  rw [hremove]
  refine ⟨a,⟨?_,?_⟩,(a,{ info with mModule := none }),List.mem_map.mpr ⟨_,hmem,if_pos rfl⟩,rfl,rfl⟩
  · intro e he hea
    obtain ⟨e',-,rfl⟩ := List.mem_map.mp he
    by_cases hea' : e'.1 = a
    · rw [if_pos hea']
    · rw [if_neg hea'] at hea
      exact absurd hea hea'
  · intro handle hclosed
    rw [hs.log] at hclosed
    simp [addRefs] at hclosed

theorem not_closed (ms : List (ℕ × M)) (a : ℕ) (handle : H) :
    (a,ModuleEvent.dlclose handle) ∉ addRefs ms ++ releases ms := by
  simp [addRefs, releases]

section Counts
variable [DecidableEq M] [DecidableEq H]

theorem count_addRefs (ms : List (ℕ × M)) (a : ℕ) (mod : M) :
    (addRefs ms : List (ℕ × ModuleEvent M H)).count (a,.addRef mod) = ms.count (a,mod) ∧
      (addRefs ms : List (ℕ × ModuleEvent M H)).count (a,.release mod) = 0 := by
  constructor
  · apply List.count_map_of_injective ms (fun x => (x.1,ModuleEvent.addRef x.2)) _ (a,mod)
    rintro ⟨b,mod⟩ ⟨c,mod'⟩ heq
    simpa using heq
  · apply List.count_eq_zero.mpr
    simp [addRefs]

theorem count_releases (ms : List (ℕ × M)) (a : ℕ) (mod : M) :
    (releases ms : List (ℕ × ModuleEvent M H)).count (a,.release mod) = ms.count (a,mod) ∧
      (releases ms : List (ℕ × ModuleEvent M H)).count (a,.addRef mod) = 0 := by
  constructor
  · apply List.count_map_of_injective ms (fun x => (x.1,ModuleEvent.release x.2)) _ (a,mod)
    rintro ⟨b,mod⟩ ⟨c,mod'⟩ heq
    simpa using heq
  · apply List.count_eq_zero.mpr
    simp [releases]

theorem Sound.safe (hs : s.Sound) : s.Safe getCID := by
  cases hs with
  | loaded ms alive h =>
    have hadd (a : ℕ) (mod : M) := count_addRefs (H := H) ms a mod
    have hone (a : ℕ) (mod : M) := List.nodup_iff_count_le_one.mp h.nodup (a,mod)
    constructor
    case once => exact fun a mod => by rw [h.log, (hadd a mod).1]; exact hone a mod
    case balanced => exact fun a mod => by rw [h.log, (hadd a mod).2]; exact Nat.zero_le _
    case released => exact fun dead => absurd (dead.symm.trans alive) Bool.true_eq_false.mp
    case closed =>
      intro l r a handle hlog
      have hmem : (a,ModuleEvent.dlclose handle) ∈ addRefs ms ++ releases ms := by
        apply List.mem_append_left
        rw [← h.log, hlog]
        exact List.mem_append_right l List.mem_cons_self
      exact absurd hmem (not_closed ms a handle)
    case unloadable =>
      intro e he hnone
      obtain ⟨mod,hmod⟩ := h.some_module he
      exact absurd (hmod.symm.trans hnone) (Option.some_ne_none mod)
  -- at the end the log is all loads, then all releases
  | gone ms dead none log nodup =>
    have hadd (a : ℕ) (mod : M) : s.log.count (a,.addRef mod) = ms.count (a,mod) := by
      rw [log, List.count_append, (count_addRefs ms a mod).1, (count_releases ms a mod).2, Nat.add_zero]
    have hrelease (a : ℕ) (mod : M) : s.log.count (a,.release mod) = ms.count (a,mod) := by
      rw [log, List.count_append, (count_addRefs ms a mod).2, (count_releases ms a mod).1, Nat.zero_add]
    constructor
    case once => exact fun a mod => by rw [hadd]; exact List.nodup_iff_count_le_one.mp nodup (a,mod)
    case balanced => exact fun a mod => by rw [hadd, hrelease]
    case released => exact fun _ a mod => by rw [hadd, hrelease]
    case closed =>
      intro l r a handle hlog
      have hmem : (a,ModuleEvent.dlclose handle) ∈ addRefs ms ++ releases ms := by
        rw [← log, hlog]
        exact List.mem_append_right l List.mem_cons_self
      exact absurd hmem (not_closed ms a handle)
    case unloadable =>
      intro e he
      rw [none] at he
      cases he

/-- A call after which all is safe has removed no module and unloaded no library. -/
theorem kept_of_safe (hs : s.Sound) (ha : s.Admits op) {o : Option ErrorCode}
    (hstep : ComponentManager.step getCID s op = .ok (o,s')) (hs' : s'.Safe getCID) : s.Kept getCID op := by
  cases hs with
  | gone ms dead => exact absurd (dead.symm.trans ha) Bool.true_eq_false.mp
  | loaded ms alive h =>
    cases op with
    | loadLibrary | destroy => trivial
    | removeModule name =>
      obtain ⟨-,rfl⟩ := Prod.mk.inj (Except.ok.inj hstep)
      show s.getModule name = none
      rw [Option.eq_none_iff_forall_ne_some]
      intro mod hmod
      obtain ⟨a,hstuck,e,he,rfl,hnone⟩ := removed_stuck h hmod
      exact hstuck.not_unloadable (hs'.unloadable e he hnone)
    | unloadLibrary cid =>
      obtain ⟨-,rfl⟩ := Prod.mk.inj (Except.ok.inj hstep)
      have hnone : s.mModules.find? (fun e => isCid getCID e.2 cid) = none := by
        rw [Option.eq_none_iff_forall_ne_some]
        rintro ⟨a,info⟩ hfind
        have hlog : (s.unloadLibrary getCID cid).2.log = s.log ++ [(a,.dlclose info.mHandle)] := by
          rw [ComponentManager.unloadLibrary, hfind]
        -- the handle is closed with no release of the module before it
        obtain ⟨mod,hreleased⟩ := hs'.closed s.log [] a info.mHandle hlog
        rw [h.log] at hreleased
        simp [addRefs] at hreleased
      intro e he
      exact Bool.eq_false_iff.mpr (List.find?_eq_none.mp hnone e he)

/-- The modules and their libraries are safe in the runs in which no module is removed and no library
unloaded, and in no others. -/
theorem safe_iff_kept (getCID : M → String) (ops : List (ModuleOp M H))
    (ha : Guarded (ComponentManager.step getCID) Admits start ops) :
    Throughout (ComponentManager.step getCID) (Safe getCID) start ops ↔
      Guarded (ComponentManager.step getCID) (Kept getCID) start ops := by
  apply throughout_iff_of_admitted Admits (Kept getCID) (fun _ h => h.safe) _ _ start_sound ops ha
  · exact fun _ _ hs hadmits hok => hs.step hadmits hok
  · exact fun _ _ _ _ hs hadmits hstep hs' => kept_of_safe hs hadmits hstep hs'

end Counts

/-- A library is loaded, a wrong name is removed, and the manager is destroyed. -/
theorem safe_iff_kept_two :
    Throughout (ComponentManager.step (fun _ : ℕ => "FooModule")) (Safe (fun _ : ℕ => "FooModule"))
        (start : ComponentManager ℕ ℕ)
        [.loadLibrary "libfooservice.so" .kNoError 1 2,.removeModule "libfoo.so",.destroy] ↔
      Guarded (ComponentManager.step (fun _ : ℕ => "FooModule")) (Kept (fun _ : ℕ => "FooModule")) start
        [.loadLibrary "libfooservice.so" .kNoError 1 2,.removeModule "libfoo.so",.destroy] := by
  apply safe_iff_kept
  exact .cons rfl rfl (.cons rfl rfl (.cons rfl rfl trivial))

/-- The destructor after a removal, and a library that is closed before its module is released. -/
theorem removed_not_safe :
    (Guarded (ComponentManager.step (fun _ : ℕ => "FooModule")) Admits (start : ComponentManager ℕ ℕ)
        [.loadLibrary "libfooservice.so" .kNoError 1 2,.removeModule "libfooservice.so",.destroy] ∧
      ¬Throughout (ComponentManager.step (fun _ : ℕ => "FooModule")) (Safe (fun _ : ℕ => "FooModule"))
        (start : ComponentManager ℕ ℕ)
        [.loadLibrary "libfooservice.so" .kNoError 1 2,.removeModule "libfooservice.so",.destroy]) ∧
    (Guarded (ComponentManager.step (fun _ : ℕ => "FooModule")) Admits (start : ComponentManager ℕ ℕ)
        [.loadLibrary "libfooservice.so" .kNoError 1 2,.unloadLibrary "FooModule"] ∧
      ¬Throughout (ComponentManager.step (fun _ : ℕ => "FooModule")) (Safe (fun _ : ℕ => "FooModule"))
        (start : ComponentManager ℕ ℕ)
        [.loadLibrary "libfooservice.so" .kNoError 1 2,.unloadLibrary "FooModule"]) := by
  refine ⟨⟨?_,?_⟩,?_,?_⟩
  · exact .cons rfl rfl (.cons rfl rfl ⟨rfl,fun _ _ _ => trivial⟩)
  · rintro ⟨-,_,_,hload,-,_,_,hremove,-,_,_,hdestroy,-⟩
    obtain ⟨-,rfl⟩ := Prod.mk.inj (Except.ok.inj hload)
    obtain ⟨-,rfl⟩ := Prod.mk.inj (Except.ok.inj hremove)
    cases hdestroy
  · exact .cons rfl rfl (.cons rfl rfl trivial)
  · rintro ⟨-,_,_,hload,-,_,_,hunload,hsafe⟩
    obtain ⟨-,rfl⟩ := Prod.mk.inj (Except.ok.inj hload)
    obtain ⟨-,rfl⟩ := Prod.mk.inj (Except.ok.inj hunload)
    obtain ⟨mod,hreleased⟩ := hsafe.closed [(0,.addRef 1)] [] 0 2 rfl
    simp at hreleased

end Sound

end ComponentManager

end JhCommon
