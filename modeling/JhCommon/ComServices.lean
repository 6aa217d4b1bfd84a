import JhCommon.ComponentManager
import JhCommon.CountedHeap

/-! The services of `ComponentManager.cpp`, with the objects of `JHCOM.h` and the factories of
`ComponentManagerUtils.h`. The interfaces of an object are at its own address. -/
namespace JhCommon
open Transition

/-- The interfaces of a class, ISupports apart. It is no factory. -/
structure Interfaces where
  iids : List String
  plain : "IFactory" ∉ iids

/-- The class of an object. `GenericFactory` makes the objects of one class, which has the identifier. -/
inductive ComClass
  | object (interfaces : Interfaces)
  | genericFactory (cid : String) (interfaces : Interfaces)

/-- What the `QueryInterface` of a class compares with. -/
def ComClass.iids : ComClass → List String
  | .object interfaces => interfaces.iids ++ ["ISupports"]
  | .genericFactory _ _ => ["IFactory","ISupports"]

/-- The objects, and the list of the services with their identifiers. Callers hold references, each of
which they got from a call. -/
structure ComServices where
  heap : CountedHeap ComClass
  mClasses : List (String × ℕ)
  held : Multiset ℕ
  destroyed : Bool

inductive ComOp
  | new (cls : ComClass)
  | addRef (a : ℕ)
  | release (a : ℕ)
  | queryInterface (a : ℕ) (iid : String)
  | addService (cid : String) (a : ℕ)
  | removeService (cid : String)
  | getService (cid iid : String)
  | createInstance (cid iid : String)
  | destroy

/-- An object is written to its place, or a NULL is, or nothing. -/
inductive ComOutcome
  | none
  | address (a : ℕ)
  | count (n : ℤ)
  | code (err : ErrorCode)
  | object (err : ErrorCode) (obj : Option (Option ℕ))

namespace ComServices

def start : ComServices := ⟨CountedHeap.empty,[],0,false⟩

def addRef (s : ComServices) (a : ℕ) : Exec (ℤ × ComServices) := do
  let (n,heap) ← s.heap.addRef a
  .ok (n,{ s with heap := heap, held := a ::ₘ s.held })

def release (s : ComServices) (a : ℕ) : Exec (ℤ × ComServices) := do
  let (n,heap) ← s.heap.release a
  .ok (n,{ s with heap := heap, held := s.held.erase a })

def queryInterface (s : ComServices) (a : ℕ) (iid : String) : Exec ((ErrorCode × Option ℕ) × ComServices) := do
  let cls ← s.heap.get a
  if iid ∈ cls.iids then do
    let (_,s) ← s.addRef a
    .ok ((.kNoError,some a),s)
  else .ok ((.kNoInterface,none),s)

def getService (s : ComServices) (cid iid : String) :
    Exec ((ErrorCode × Option (Option ℕ)) × ComServices) :=
  match s.mClasses.find? fun e => e.1 = cid with
  | none => .ok ((.kNoClass,none),s)
  | some (_,a) => do
    let ((err,obj),s) ← s.queryInterface a iid
    .ok ((err,some obj),s)

/-- `CreateInstance` of a `GenericFactory`. -/
def factoryCreate (s : ComServices) (own : String) (interfaces : Interfaces) (cid iid : String) :
    Exec ((ErrorCode × Option (Option ℕ)) × ComServices) :=
  if cid = own then do
    let a := s.heap.made
    -- a smart pointer holds the object until its interface has been asked for
    let (_,s) ← { s with heap := s.heap.alloc (.object interfaces) }.addRef a
    let ((err,obj),s) ← s.queryInterface a iid
    let (_,s) ← s.release a
    .ok ((err,some obj),s)
  else .ok ((.kNoClass,none),s)

def createInstance (s : ComServices) (cid iid : String) :
    Exec ((ErrorCode × Option (Option ℕ)) × ComServices) := do
  let ((_,factory),s) ← s.getService cid "IFactory"
  match factory with
  | some (some f) => do
    match ← s.heap.get f with
    | .genericFactory own interfaces => do
      let (out,s) ← s.factoryCreate own interfaces cid iid
      let (_,s) ← s.release f
      .ok (out,s)
    -- no other class has the interface
    | .object _ => .error .nullDeref
  | _ => .ok ((.kNoFactory,none),s)

def addService (s : ComServices) (cid : String) (a : ℕ) : Exec (ErrorCode × ComServices) := do
  let (_,heap) ← s.heap.addRef a
  .ok (.kNoError,{ s with heap := heap, mClasses := s.mClasses ++ [(cid,a)] })

def removeService (s : ComServices) (cid : String) : Exec (ErrorCode × ComServices) :=
  match s.mClasses.find? fun e => e.1 = cid with
  | none => .ok (.kNoClass,s)
  | some (_,a) => do
    let (_,heap) ← s.heap.release a
    .ok (.kNoError,{ s with heap := heap, mClasses := s.mClasses.eraseP fun e => e.1 = cid })

/-- The loop of the destructor. -/
def releaseAll : List (String × ℕ) → CountedHeap ComClass → Exec (CountedHeap ComClass)
  | [], heap => .ok heap
  | (_,a) :: rest, heap => do
    let (_,heap) ← heap.release a
    releaseAll rest heap

def step (s : ComServices) : ComOp → Exec (ComOutcome × ComServices)
  | .new cls => .ok (.address s.heap.made,{ s with heap := s.heap.alloc cls })
  | .addRef a => do
    let (n,s) ← s.addRef a
    .ok (.count n,s)
  | .release a => do
    let (n,s) ← s.release a
    .ok (.count n,s)
  | .queryInterface a iid => do
    let ((err,obj),s) ← s.queryInterface a iid
    .ok (.object err (some obj),s)
  | .addService cid a => do
    let (err,s) ← s.addService cid a
    .ok (.code err,s)
  | .removeService cid => do
    let (err,s) ← s.removeService cid
    .ok (.code err,s)
  | .getService cid iid => do
    let ((err,obj),s) ← s.getService cid iid
    .ok (.object err obj,s)
  | .createInstance cid iid => do
    let ((err,obj),s) ← s.createInstance cid iid
    .ok (.object err obj,s)
  | .destroy => do
    let heap ← releaseAll s.mClasses s.heap
    .ok (.none,{ s with heap := heap, mClasses := [], destroyed := true })

/-- A caller uses what is there, gives back only what it holds, does not call the manager after its
destruction, and asks for no reference where an object has as many as an int can count. -/
def Admits (s : ComServices) : ComOp → Prop
  | .new _ => True
  | .addRef a | .queryInterface a _ => (s.heap.objs a).isSome ∧ s.heap.RoomFor a
  | .release a => a ∈ s.held
  | .addService _ a => (s.heap.objs a).isSome ∧ s.heap.RoomFor a ∧ s.destroyed = false
  | .getService cid _ | .createInstance cid _ =>
    s.destroyed = false ∧ ∀ e ∈ s.mClasses.find? (fun e => e.1 = cid), s.heap.RoomFor e.2
  | .removeService _ | .destroy => s.destroyed = false

end ComServices

/-- What the services are for: objects are shared by name, and nothing is counted. Of each object that was
ever made the class is known. Raw ones nobody has referred to. -/
@[ext] structure ComRegistry where
  classes : List ComClass
  services : List (String × ℕ)
  held : Multiset ℕ
  raw : Finset ℕ
  destroyed : Bool

namespace ComRegistry

def start : ComRegistry := ⟨[],[],0,∅,false⟩

/-- A reference for each service, and those of the callers. -/
def refs (t : ComRegistry) : Multiset ℕ := t.held+↑(t.services.map Prod.snd)

def Lives (t : ComRegistry) (a : ℕ) : Prop := a ∈ t.refs ∨ a ∈ t.raw

def find (t : ComRegistry) (cid : String) : Option ℕ := (t.services.find? fun e => e.1 = cid).map Prod.snd

def take (t : ComRegistry) (a : ℕ) : ComRegistry := { t with held := a ::ₘ t.held, raw := t.raw.erase a }

def drop (t : ComRegistry) (a : ℕ) : ComRegistry := { t with held := t.held.erase a }

def implements (t : ComRegistry) (a : ℕ) (iid : String) : Bool :=
  match t.classes[a]? with
  | some cls => iid ∈ cls.iids
  | none => false

def query (t : ComRegistry) (a : ℕ) (iid : String) : (ErrorCode × Option ℕ) × ComRegistry :=
  if t.implements a iid = true then ((.kNoError,some a),t.take a) else ((.kNoInterface,none),t)

def getService (t : ComRegistry) (cid iid : String) : (ErrorCode × Option (Option ℕ)) × ComRegistry :=
  match t.find cid with
  | none => ((.kNoClass,none),t)
  | some a => (((t.query a iid).1.1,some (t.query a iid).1.2),(t.query a iid).2)

/-- An instance of the class that the service makes, for the caller, if it has the interface. -/
def createInstance (t : ComRegistry) (cid iid : String) : (ErrorCode × Option (Option ℕ)) × ComRegistry :=
  match (t.find cid).bind fun f => t.classes[f]? with
  | some (.genericFactory own interfaces) =>
    if cid = own then
      let t' := { t with classes := t.classes ++ [.object interfaces] }
      if iid ∈ (ComClass.object interfaces).iids then
        ((.kNoError,some (some t.classes.length)),{ t' with held := t.classes.length ::ₘ t.held })
      else ((.kNoInterface,some none),t')
    else ((.kNoClass,none),t)
  | _ => ((.kNoFactory,none),t)

def call (t : ComRegistry) : ComOp → ComOutcome × ComRegistry
  | .new cls => (.address t.classes.length,
      { t with classes := t.classes ++ [cls], raw := insert t.classes.length t.raw })
  | .addRef a => (.count (t.refs.count a+1),t.take a)
  | .release a => (.count ((t.refs.erase a).count a),t.drop a)
  | .queryInterface a iid => (.object (t.query a iid).1.1 (some (t.query a iid).1.2),(t.query a iid).2)
  | .addService cid a =>
    (.code .kNoError,{ t with services := t.services ++ [(cid,a)], raw := t.raw.erase a })
  | .removeService cid =>
    if (t.find cid).isSome = true then
      (.code .kNoError,{ t with services := t.services.eraseP fun e => e.1 = cid })
    else (.code .kNoClass,t)
  | .getService cid iid => (.object (t.getService cid iid).1.1 (t.getService cid iid).1.2,(t.getService cid iid).2)
  | .createInstance cid iid =>
    (.object (t.createInstance cid iid).1.1 (t.createInstance cid iid).1.2,(t.createInstance cid iid).2)
  | .destroy => (.none,{ t with services := [], destroyed := true })

def spec (t : ComRegistry) (op : ComOp) (o : ComOutcome) (t' : ComRegistry) : Prop := t.call op = (o,t')

end ComRegistry

namespace ComServices

/-- The counts are as many as the references, and what lives in the registry is there. -/
structure Refines (s : ComServices) (t : ComRegistry) : Prop where
  shares : s.heap.Shares t.classes t.refs t.raw
  services : s.mClasses = t.services
  held : s.held = t.held
  destroyed : s.destroyed = t.destroyed

variable {s : ComServices} {t : ComRegistry} {a : ℕ} {cid iid : String}

theorem start_refines : start.Refines ComRegistry.start := ⟨CountedHeap.empty_shares,rfl,rfl,rfl⟩

namespace Refines

theorem isSome_iff (h : s.Refines t) (a : ℕ) : (s.heap.objs a).isSome ↔ t.Lives a := h.shares.lives a

theorem lt_length (h : s.Refines t) (ha : t.Lives a) : a < t.classes.length := by
  obtain ⟨c,-,hobj,-⟩ := h.shares.exists_obj ha
  exact (List.getElem?_eq_some_iff.mp hobj).1

theorem lives_find (h : t.find cid = some a) : t.Lives a := by
  obtain ⟨e,he,rfl⟩ := Option.map_eq_some_iff.mp h
  have hmem : e.2 ∈ t.services.map Prod.snd := List.mem_map_of_mem (List.mem_of_find?_eq_some he)
  exact .inl (Multiset.mem_add.mpr (.inr hmem))

theorem addRef (h : s.Refines t) (ha : t.Lives a) (hroom : s.heap.RoomFor a) :
    ∃ s', s.addRef a = .ok (t.refs.count a+1,s') ∧ s'.Refines (t.take a) := by
  obtain ⟨heap,hadd,hshares⟩ := h.shares.addRef ha hroom
  refine ⟨{ s with heap := heap, held := a ::ₘ s.held },by rw [ComServices.addRef, hadd, ok_bind],?_⟩
  have hrefs : (t.take a).refs = a ::ₘ t.refs := Multiset.cons_add a _ _
  constructor
  case shares =>
    rw [hrefs]
    exact hshares
  case services => exact h.services
  case held => exact congrArg (a ::ₘ ·) h.held
  case destroyed => exact h.destroyed

theorem release (h : s.Refines t) (ha : a ∈ t.held) :
    ∃ s', s.release a = .ok ((t.refs.erase a).count a,s') ∧ s'.Refines (t.drop a) := by
  obtain ⟨heap,hrelease,hshares⟩ := h.shares.release (Multiset.mem_add.mpr (.inl ha))
  refine ⟨{ s with heap := heap, held := s.held.erase a },by rw [ComServices.release, hrelease, ok_bind],?_⟩
  have hrefs : (t.drop a).refs = t.refs.erase a := (Multiset.erase_add_left_pos _ ha).symm
  constructor
  case shares =>
    rw [hrefs]
    exact hshares
  case services => exact h.services
  case held => exact congrArg (·.erase a) h.held
  case destroyed => exact h.destroyed

theorem implements_eq (h : s.Refines t) (ha : t.Lives a) (iid : String) :
    ∃ cls, s.heap.get a = .ok cls ∧ t.classes[a]? = some cls ∧
      (t.implements a iid = true ↔ iid ∈ cls.iids) := by
  obtain ⟨cls,hget,hcls⟩ := h.shares.get ha
  exact ⟨cls,hget,hcls,by rw [ComRegistry.implements, hcls]; exact decide_eq_true_iff⟩

theorem queryInterface (h : s.Refines t) (ha : t.Lives a) (hroom : s.heap.RoomFor a) (iid : String) :
    ∃ s', s.queryInterface a iid = .ok ((t.query a iid).1,s') ∧ s'.Refines (t.query a iid).2 := by
  obtain ⟨cls,hget,-,hiff⟩ := h.implements_eq ha iid
  by_cases hiid : iid ∈ cls.iids
  · obtain ⟨s',hadd,h'⟩ := h.addRef ha hroom
    rw [ComRegistry.query, if_pos (hiff.mpr hiid)]
    refine ⟨s',?_,h'⟩
    rw [ComServices.queryInterface, hget, ok_bind, if_pos hiid, hadd, ok_bind]
  · rw [ComRegistry.query, if_neg (hiff.not.mpr hiid)]
    refine ⟨s,?_,h⟩
    rw [ComServices.queryInterface, hget, ok_bind, if_neg hiid]

theorem find_eq (h : s.Refines t) : (s.mClasses.find? fun e => e.1 = cid).map Prod.snd = t.find cid := by
  rw [ComRegistry.find, h.services]

theorem getService (h : s.Refines t) (iid : String)
    (hroom : ∀ e ∈ s.mClasses.find? (fun e => e.1 = cid), s.heap.RoomFor e.2) :
    ∃ s', s.getService cid iid = .ok ((t.getService cid iid).1,s') ∧ s'.Refines (t.getService cid iid).2 := by
  cases hfind : s.mClasses.find? fun e => e.1 = cid with
  | none =>
    have hnone : t.find cid = none := by rw [← h.find_eq, hfind, Option.map_none]
    exact ⟨s,by rw [ComServices.getService, hfind, ComRegistry.getService, hnone],by
      rw [ComRegistry.getService, hnone]; exact h⟩
  | some e =>
    have hsome : t.find cid = some e.2 := by rw [← h.find_eq, hfind, Option.map_some]
    obtain ⟨s',hquery,h'⟩ := h.queryInterface (lives_find hsome) (hroom e hfind) iid
    rw [ComRegistry.getService, hsome]
    exact ⟨s',by rw [ComServices.getService, hfind]; simp only [hquery, ok_bind],h'⟩

/-- A new object that nobody has. -/
theorem alloc (h : s.Refines t) (cls : ComClass) : { s with heap := s.heap.alloc cls }.Refines
    { t with classes := t.classes ++ [cls], raw := insert t.classes.length t.raw } where
  shares := h.shares.alloc cls
  services := h.services
  held := h.held
  destroyed := h.destroyed

theorem erase_new (h : s.Refines t) : (insert t.classes.length t.raw).erase t.classes.length = t.raw := by
  apply Finset.erase_insert
  exact fun hmem => (h.lt_length (.inr hmem)).ne rfl

/-- A factory makes an object for its caller, and deletes one that has not got the interface. -/
theorem factoryCreate (h : s.Refines t) (own : String) (interfaces : Interfaces) (iid : String) :
    ∃ s', s.factoryCreate own interfaces own iid =
        .ok (if iid ∈ (ComClass.object interfaces).iids then (.kNoError,some (some t.classes.length))
          else (.kNoInterface,some none),s') ∧
      s'.Refines { t with
        classes := t.classes ++ [.object interfaces]
        held := if iid ∈ (ComClass.object interfaces).iids then t.classes.length ::ₘ t.held else t.held } := by
  have hmade : s.heap.made = t.classes.length := h.shares.made
  have halloc := h.alloc (.object interfaces)
  have hnew : t.refs.count t.classes.length = 0 :=
    Multiset.count_eq_zero_of_notMem fun hmem => (h.lt_length (.inl hmem)).ne rfl
  obtain ⟨s₁,hadd,h₁⟩ := halloc.addRef (.inr (Finset.mem_insert_self _ _)) (halloc.shares.roomFor
    (show t.refs.count t.classes.length < 2^31-1 by rw [hnew]; decide))
  have hlast : (t.classes ++ [ComClass.object interfaces])[t.classes.length]? = some (.object interfaces) := by
    simp
  have hlives : ComRegistry.Lives (ComRegistry.take
      { t with classes := t.classes ++ [.object interfaces], raw := insert t.classes.length t.raw }
      t.classes.length) t.classes.length :=
    .inl (Multiset.mem_add.mpr (.inl (Multiset.mem_cons_self _ _)))
  have hone : (ComRegistry.take
      { t with classes := t.classes ++ [.object interfaces], raw := insert t.classes.length t.raw }
      t.classes.length).refs.count t.classes.length = 1 := by
    rw [ComRegistry.refs, ComRegistry.take, Multiset.cons_add, Multiset.count_cons_self]
    exact congrArg (·+1) hnew
  obtain ⟨s₂,hquery,h₂⟩ := h₁.queryInterface hlives (h₁.shares.roomFor (by rw [hone]; decide)) iid
  -- two references were made, or one, and one is given back
  by_cases hiid : iid ∈ (ComClass.object interfaces).iids
  · rw [ComRegistry.query, if_pos (by simpa [ComRegistry.implements, ComRegistry.take] using hiid)] at hquery h₂
    obtain ⟨s₃,hrelease,h₃⟩ := h₂.release (Multiset.mem_cons_self _ _)
    refine ⟨s₃,?_,?_⟩
    · rw [ComServices.factoryCreate, if_pos rfl]
      simp only [hmade, hadd, ok_bind, hquery, hrelease, if_pos hiid]
    · convert h₃ using 1
      ext1
      case classes | services | destroyed => rfl
      case held => simp [ComRegistry.drop, ComRegistry.take, hiid]
      case raw =>
        calc t.raw = (insert t.classes.length t.raw).erase t.classes.length := h.erase_new.symm
          _ = ((insert t.classes.length t.raw).erase t.classes.length).erase t.classes.length :=
            (Finset.erase_idem).symm
  · rw [ComRegistry.query, if_neg (by simpa [ComRegistry.implements, ComRegistry.take] using hiid)] at hquery h₂
    obtain ⟨s₃,hrelease,h₃⟩ := h₂.release (Multiset.mem_cons_self _ _)
    refine ⟨s₃,?_,?_⟩
    · rw [ComServices.factoryCreate, if_pos rfl]
      simp only [hmade, hadd, ok_bind, hquery, hrelease, if_neg hiid]
    · convert h₃ using 1
      ext1
      case classes | services | destroyed => rfl
      case held => simp [ComRegistry.drop, ComRegistry.take, hiid]
      case raw => exact h.erase_new.symm

/-- What a call takes and gives back leaves no trace. -/
theorem drop_take (h : s.Refines t) (ha : a ∈ t.refs) : (t.take a).drop a = t := by
  ext1
  case classes | services | destroyed => rfl
  case held => exact Multiset.erase_cons_head a t.held
  case raw => exact Finset.erase_eq_of_notMem fun hraw => h.shares.unused a hraw ha

theorem createInstance (h : s.Refines t) (iid : String)
    (hroom : ∀ e ∈ s.mClasses.find? (fun e => e.1 = cid), s.heap.RoomFor e.2) :
    ∃ s', s.createInstance cid iid = .ok ((t.createInstance cid iid).1,s') ∧
      s'.Refines (t.createInstance cid iid).2 := by
  obtain ⟨s₁,hget,h₁⟩ := h.getService "IFactory" hroom
  cases hfind : t.find cid with
  | none =>
    rw [ComRegistry.getService, hfind] at hget h₁
    rw [ComRegistry.createInstance, hfind]
    exact ⟨s₁,by simp only [ComServices.createInstance, hget, ok_bind]; rfl,h₁⟩
  | some f =>
    have hlives := lives_find hfind
    have hrefs : f ∈ t.refs := by
      obtain ⟨e,he,rfl⟩ := Option.map_eq_some_iff.mp hfind
      exact Multiset.mem_add.mpr (.inr (List.mem_map_of_mem (List.mem_of_find?_eq_some he)))
    obtain ⟨cls,-,hcls,hiff⟩ := h.implements_eq hlives "IFactory"
    rw [ComRegistry.getService, hfind] at hget h₁
    simp only [ComRegistry.query] at hget h₁
    cases cls with
    | object interfaces =>
      have hspec : t.createInstance cid iid = ((.kNoFactory,none),t) := by
        simp only [ComRegistry.createInstance, hfind, Option.bind_some, hcls]
      have hno : "IFactory" ∉ (ComClass.object interfaces).iids := by
        simpa [ComClass.iids] using interfaces.plain
      rw [if_neg (hiff.not.mpr hno)] at hget h₁
      rw [hspec]
      exact ⟨s₁,by simp only [ComServices.createInstance, hget, ok_bind],h₁⟩
    | genericFactory own interfaces =>
      have hyes : "IFactory" ∈ (ComClass.genericFactory own interfaces).iids := by simp [ComClass.iids]
      rw [if_pos (hiff.mpr hyes)] at hget h₁
      have hheld : f ∈ (t.take f).held := Multiset.mem_cons_self f t.held
      obtain ⟨cls,hclass,hcls',-⟩ := h₁.implements_eq (.inl (Multiset.mem_add.mpr (.inl hheld))) iid
      obtain rfl := Option.some.inj (hcls.symm.trans hcls')
      by_cases hcid : cid = own
      · subst hcid
        obtain ⟨s₂,hmake,h₂⟩ := h₁.factoryCreate cid interfaces iid
        have hne : t.classes.length ≠ f := (h.lt_length hlives).ne'
        have hraw : t.raw.erase f = t.raw := Finset.erase_eq_of_notMem fun hraw => h.shares.unused f hraw hrefs
        by_cases hiid : iid ∈ (ComClass.object interfaces).iids
        · have hspec : t.createInstance cid iid = ((.kNoError,some (some t.classes.length)),{ t with
              classes := t.classes ++ [.object interfaces], held := t.classes.length ::ₘ t.held }) := by
            simp only [ComRegistry.createInstance, hfind, Option.bind_some, hcls, if_true, if_pos hiid]
          rw [if_pos hiid] at hmake
          simp only [if_pos hiid] at h₂
          obtain ⟨s₃,hrelease,h₃⟩ := h₂.release (Multiset.mem_cons_of_mem hheld)
          rw [hspec]
          refine ⟨s₃,?_,?_⟩
          · simp only [ComServices.createInstance, hget, ok_bind, hclass, hmake, hrelease]
            rfl
          · convert h₃ using 1
            ext1
            case classes | services | destroyed => rfl
            case held => simp [ComRegistry.drop, ComRegistry.take, Multiset.erase_cons_tail, hne]
            case raw => exact hraw.symm
        · have hspec : t.createInstance cid iid = ((.kNoInterface,some none),{ t with
              classes := t.classes ++ [.object interfaces] }) := by
            simp only [ComRegistry.createInstance, hfind, Option.bind_some, hcls, if_true, if_neg hiid]
          rw [if_neg hiid] at hmake
          simp only [if_neg hiid] at h₂
          obtain ⟨s₃,hrelease,h₃⟩ := h₂.release hheld
          rw [hspec]
          refine ⟨s₃,?_,?_⟩
          · simp only [ComServices.createInstance, hget, ok_bind, hclass, hmake, hrelease]
          · convert h₃ using 1
            ext1
            case classes | services | destroyed => rfl
            case held => simp [ComRegistry.drop, ComRegistry.take]
            case raw => exact hraw.symm
      · have hspec : t.createInstance cid iid = ((.kNoClass,none),t) := by
          simp only [ComRegistry.createInstance, hfind, Option.bind_some, hcls, if_neg hcid]
        obtain ⟨s₂,hrelease,h₂⟩ := h₁.release hheld
        rw [h.drop_take hrefs] at h₂
        rw [hspec]
        refine ⟨s₂,?_,h₂⟩
        simp only [ComServices.createInstance, hget, ok_bind, hclass, ComServices.factoryCreate, if_neg hcid,
          hrelease]

theorem addService (h : s.Refines t) (ha : t.Lives a) (hroom : s.heap.RoomFor a) (cid : String) :
    ∃ s', s.addService cid a = .ok (.kNoError,s') ∧
      s'.Refines { t with services := t.services ++ [(cid,a)], raw := t.raw.erase a } := by
  obtain ⟨heap,hadd,hshares⟩ := h.shares.addRef ha hroom
  refine ⟨{ s with heap := heap, mClasses := s.mClasses ++ [(cid,a)] },by
    rw [ComServices.addService, hadd, ok_bind],?_⟩
  have hrefs : ComRegistry.refs { t with services := t.services ++ [(cid,a)], raw := t.raw.erase a } =
      a ::ₘ t.refs := by
    simp only [ComRegistry.refs, List.map_append, List.map_cons, List.map_nil, ← Multiset.coe_add]
    rw [← add_assoc, Multiset.coe_singleton, Multiset.add_comm, Multiset.singleton_add]
  constructor
  case shares =>
    rw [hrefs]
    exact hshares
  case services => exact congrArg (· ++ [(cid,a)]) h.services
  case held => exact h.held
  case destroyed => exact h.destroyed

/-- The references that are left when the first of the services with a name is removed. -/
theorem map_eraseP {l : List (String × ℕ)} {e : String × ℕ} {p : String × ℕ → Bool} (h : l.find? p = some e) :
    (((l.eraseP p).map Prod.snd : List ℕ) : Multiset ℕ) = ((l.map Prod.snd : List ℕ) : Multiset ℕ).erase e.2 := by
  induction l with
  | nil => cases h
  | cons d l ih =>
    by_cases hd : p d = true
    · rw [List.find?_cons_of_pos hd] at h
      obtain rfl := Option.some.inj h
      rw [List.eraseP_cons_of_pos hd]
      simp
    · rw [List.find?_cons_of_neg hd] at h
      rw [List.eraseP_cons_of_neg hd, List.map_cons, ← Multiset.cons_coe, ih h, List.map_cons,
        ← Multiset.cons_coe]
      have hmem : e.2 ∈ ((l.map Prod.snd : List ℕ) : Multiset ℕ) :=
        List.mem_map_of_mem (List.mem_of_find?_eq_some h)
      rw [Multiset.erase_cons_tail_of_mem hmem]

theorem removeService (h : s.Refines t) (cid : String) :
    ∃ s', s.removeService cid =
        .ok (if (t.find cid).isSome = true then .kNoError else .kNoClass,s') ∧
      s'.Refines (if (t.find cid).isSome = true then
        { t with services := t.services.eraseP fun e => e.1 = cid } else t) := by
  cases hfind : s.mClasses.find? fun e => e.1 = cid with
  | none =>
    have hnone : t.find cid = none := by rw [← h.find_eq, hfind, Option.map_none]
    exact ⟨s,by rw [ComServices.removeService, hfind, hnone]; rfl,by rw [hnone]; exact h⟩
  | some e =>
    have hsome : t.find cid = some e.2 := by rw [← h.find_eq, hfind, Option.map_some]
    have hservice : e.2 ∈ ((t.services.map Prod.snd : List ℕ) : Multiset ℕ) := by
      rw [← h.services]
      exact List.mem_map_of_mem (List.mem_of_find?_eq_some hfind)
    obtain ⟨heap,hrelease,hshares⟩ := h.shares.release (Multiset.mem_add.mpr (.inr hservice))
    rw [hsome]
    refine ⟨{ s with heap := heap, mClasses := s.mClasses.eraseP fun e => e.1 = cid },?_,?_⟩
    · rw [ComServices.removeService, hfind]
      simp only [hrelease, ok_bind]
      rfl
    · have hrefs : ComRegistry.refs { t with services := t.services.eraseP fun e => e.1 = cid } =
          t.refs.erase e.2 := by
        rw [h.services] at hfind
        rw [ComRegistry.refs, ComRegistry.refs, Multiset.erase_add_right_pos _ hservice]
        exact congrArg (t.held + ·) (map_eraseP hfind)
      constructor
      case shares => exact hrefs ▸ hshares
      case services => exact congrArg (·.eraseP fun e => e.1 = cid) h.services
      case held => exact h.held
      case destroyed => exact h.destroyed

/-- The destructor gives back a reference for each service. -/
theorem releaseAll {l : List (String × ℕ)} {heap : CountedHeap ComClass} {all : List ComClass}
    {held : Multiset ℕ} {raw : Finset ℕ} (h : heap.Shares all (held+↑(l.map Prod.snd)) raw) :
    ∃ heap', ComServices.releaseAll l heap = .ok heap' ∧ heap'.Shares all held raw := by
  induction l generalizing heap with
  | nil => exact ⟨heap,rfl,by simpa using h⟩
  | cons e l ih =>
    have hmem : e.2 ∈ (((e :: l).map Prod.snd : List ℕ) : Multiset ℕ) := by simp
    obtain ⟨heap₁,hrelease,h₁⟩ := h.release (Multiset.mem_add.mpr (.inr hmem))
    rw [Multiset.erase_add_right_pos _ hmem] at h₁
    obtain ⟨heap₂,hrest,h₂⟩ := ih (by simpa using h₁)
    exact ⟨heap₂,by rw [ComServices.releaseAll, hrelease, ok_bind]; exact hrest,h₂⟩

theorem destroy (h : s.Refines t) : ∃ heap, ComServices.releaseAll s.mClasses s.heap = .ok heap ∧
    Refines { s with heap := heap, mClasses := [], destroyed := true }
      { t with services := [], destroyed := true } := by
  have hshares : s.heap.Shares t.classes (t.held+↑(s.mClasses.map Prod.snd)) t.raw := by
    rw [h.services]
    exact h.shares
  obtain ⟨heap,hall,h'⟩ := releaseAll hshares
  refine ⟨heap,hall,?_,rfl,h.held,rfl⟩
  simpa [ComRegistry.refs] using h'

/-- Each call does what the registry says. -/
theorem step {op : ComOp} (h : s.Refines t) (hadm : s.Admits op) : ∃ o s' t',
    ComServices.step s op = .ok (o,s') ∧ t.spec op o t' ∧ s'.Refines t' := by
  cases op with
  | new cls =>
    refine ⟨_,_,_,rfl,?_,h.alloc cls⟩
    rw [h.shares.made]
    rfl
  | addRef a =>
    obtain ⟨s',hs',h'⟩ := h.addRef ((h.isSome_iff a).mp hadm.1) hadm.2
    exact ⟨_,s',_,by rw [ComServices.step, hs', ok_bind],rfl,h'⟩
  | release a =>
    have hheld : a ∈ s.held := hadm
    obtain ⟨s',hs',h'⟩ := h.release (h.held ▸ hheld)
    exact ⟨_,s',_,by rw [ComServices.step, hs', ok_bind],rfl,h'⟩
  | queryInterface a iid =>
    obtain ⟨s',hs',h'⟩ := h.queryInterface ((h.isSome_iff a).mp hadm.1) hadm.2 iid
    exact ⟨_,s',_,by rw [ComServices.step, hs', ok_bind],rfl,h'⟩
  | addService cid a =>
    obtain ⟨s',hs',h'⟩ := h.addService ((h.isSome_iff a).mp hadm.1) hadm.2.1 cid
    exact ⟨_,s',_,by rw [ComServices.step, hs', ok_bind],rfl,h'⟩
  | removeService cid =>
    obtain ⟨s',hs',h'⟩ := h.removeService cid
    refine ⟨_,s',_,by rw [ComServices.step, hs', ok_bind],?_,h'⟩
    rw [ComRegistry.spec, ComRegistry.call]
    split <;> rfl
  | getService cid iid =>
    obtain ⟨s',hs',h'⟩ := h.getService iid hadm.2
    exact ⟨_,s',_,by rw [ComServices.step, hs', ok_bind],rfl,h'⟩
  | createInstance cid iid =>
    obtain ⟨s',hs',h'⟩ := h.createInstance iid hadm.2
    exact ⟨_,s',_,by rw [ComServices.step, hs', ok_bind],rfl,h'⟩
  | destroy =>
    obtain ⟨heap,hall,h'⟩ := h.destroy
    exact ⟨_,_,_,by rw [ComServices.step, hall, ok_bind],rfl,h'⟩

end Refines

/-- Whatever callers do who give back only what they were given, the counted objects behave as shared ones:
every call answers as the registry does, none meets an object that has been deleted, and an object is there
just as long as it is a service or somebody has it, if it was ever handed over. -/
theorem run_refines (ops : List ComOp) (hg : Guarded ComServices.step Admits start ops) : ∃ os s t,
    run ComServices.step start ops = .ok (os,s) ∧ Trace ComRegistry.spec ComRegistry.start ops os t ∧
      ∀ a, (s.heap.objs a).isSome ↔ t.Lives a := by
  have hstep : ∀ s t op, Refines s t → s.Admits op → ∃ o s' t',
      ComServices.step s op = .ok (o,s') ∧ t.spec op o t' ∧ s'.Refines t' :=
    fun _ _ _ h hadm => h.step hadm
  obtain ⟨os,s,t,hrun,htrace,h⟩ := run_simulates_guarded Admits Refines hstep start_refines ops hg
  exact ⟨os,s,t,hrun,htrace,h.isSome_iff⟩

/-- A factory is registered, makes an instance, and the manager is destroyed before the instance is given
back. -/
def instanceOps : List ComOp :=
  [.new (.genericFactory "FooFactory" ⟨["IFoo"],by decide⟩),.addService "FooFactory" 0,
    .createInstance "FooFactory" "IFoo",.createInstance "FooFactory" "IBar",.destroy,.release 1]

theorem run_refines_instance : ∃ os s t,
    run ComServices.step start instanceOps = .ok (os,s) ∧
      Trace ComRegistry.spec ComRegistry.start instanceOps os t ∧
      ∀ a, (s.heap.objs a).isSome ↔ t.Lives a := by
  apply run_refines
  refine .cons rfl trivial (.cons rfl ⟨rfl,?_,rfl⟩ (.cons rfl ⟨rfl,?_⟩ (.cons rfl ⟨rfl,?_⟩
    (.cons rfl rfl (.cons rfl (Multiset.mem_cons_self 1 0) trivial)))))
  · rintro c ⟨⟩
    decide
  · rintro e ⟨⟩ c ⟨⟩
    decide
  · rintro e ⟨⟩ c ⟨⟩
    decide

end ComServices

end JhCommon
