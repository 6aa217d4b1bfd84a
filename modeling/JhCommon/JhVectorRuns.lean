import JhCommon.JhVector
import JhCommon.Transition

/-! Any number of vectors of one element type, what is called on them, and the lists that they stand
for. -/
namespace JhCommon
open ObjectSlots Transition

/-- The vectors, none for those that have been destroyed, and the storage of their objects. -/
structure Vectors (T : Type) where
  vecs : List (Option JhVector)
  slots : ObjectSlots T

inductive VectorOp (T : Type)
  | create
  | createSized (allocated : ℕ)
  | copy (j : ℕ)
  | assign (i j : ℕ)
  | pushBack (i : ℕ) (val : T)
  | erase (i ind : ℕ)
  | resize (i newSize : ℕ)
  | reserve (i size : ℕ)
  | clear (i : ℕ)
  | destroy (i : ℕ)

namespace Vectors
variable {T : Type}

def start : Vectors T := ⟨[],.empty⟩

/-- Vector i. A vector that there is not is no buffer. -/
def vec (s : Vectors T) (i : ℕ) : Except SlotFault JhVector :=
  match s.vecs[i]? with
  | some (some v) => .ok v
  | some none | none => .error .noBuffer

/-- A call on vector i. -/
def call (s : Vectors T) (i : ℕ)
    (f : JhVector → ObjectSlots T → Except SlotFault (JhVector × ObjectSlots T)) :
    Except SlotFault (Unit × Vectors T) := do
  let v ← s.vec i
  let (v,h) ← f v s.slots
  .ok ((),⟨s.vecs.set i (some v),h⟩)

def add (s : Vectors T) (r : JhVector × ObjectSlots T) : Unit × Vectors T :=
  ((),⟨s.vecs ++ [some r.1],r.2⟩)

def step [Inhabited T] (s : Vectors T) : VectorOp T → Except SlotFault (Unit × Vectors T)
  | .create => .ok (s.add (JhVector.create s.slots))
  | .createSized n => .ok (s.add (JhVector.createSized s.slots n))
  | .copy j => do
    let rhs ← s.vec j
    let r ← JhVector.copy s.slots rhs
    .ok (s.add r)
  | .assign i j => do
    let rhs ← s.vec j
    s.call i fun v h => v.assign h rhs
  | .pushBack i val => s.call i fun v h => v.pushBack h val
  | .erase i ind => s.call i fun v h => v.erase h ind
  | .resize i n => s.call i fun v h => v.resize h n
  | .reserve i n => s.call i fun v h => v.reserve h n
  | .clear i => s.call i JhVector.clear
  | .destroy i => do
    let v ← s.vec i
    let h ← v.destroy s.slots
    .ok ((),⟨s.vecs.set i none,h⟩)

/-- The calls that there may be: on vectors that there are, within the vector, with sizes below
2^31, and assignment from another vector. -/
def Admits (s : Vectors T) : VectorOp T → Prop
  | .create => True
  | .createSized n => n < 2^31
  | .copy j => ∃ w, s.vec j = .ok w
  | .assign i j => i ≠ j ∧ (∃ v, s.vec i = .ok v) ∧ ∃ w, s.vec j = .ok w
  | .pushBack i _ => ∃ v, s.vec i = .ok v ∧ v.size+1 < 2^31
  | .erase i ind => ∃ v, s.vec i = .ok v ∧ ind < v.size
  | .resize i n | .reserve i n => (∃ v, s.vec i = .ok v) ∧ n < 2^31
  | .clear i | .destroy i => ∃ v, s.vec i = .ok v

/-- Whether a computation returns something of a kind is decided by running it. -/
def decideReturns {ε α : Type} (x : Except ε α) (P : α → Prop) [DecidablePred P] :
    Decidable (∃ a, x = .ok a ∧ P a) :=
  match x with
  | .error _ => isFalse fun ⟨_,h,_⟩ => nomatch h
  | .ok a => decidable_of_iff (P a) ⟨fun h => ⟨a,rfl,h⟩,fun ⟨_,h,hP⟩ => Except.ok.inj h ▸ hP⟩

instance (s : Vectors T) (op : VectorOp T) : Decidable (s.Admits op) :=
  have returns (i : ℕ) : Decidable (∃ v, s.vec i = .ok v) :=
    @decidable_of_iff _ _ (by simp) (decideReturns (s.vec i) fun _ => True)
  match op with
  | .create => inferInstanceAs (Decidable True)
  | .createSized n => inferInstanceAs (Decidable (n < 2^31))
  | .copy j => returns j
  | .assign i j => inferInstanceAs (Decidable (i ≠ j ∧ (∃ v, s.vec i = .ok v) ∧ ∃ w, s.vec j = .ok w))
  | .pushBack i _ => decideReturns (s.vec i) fun v => v.size+1 < 2^31
  | .erase i ind => decideReturns (s.vec i) fun v => ind < v.size
  | .resize i n | .reserve i n => inferInstanceAs (Decidable ((∃ v, s.vec i = .ok v) ∧ n < 2^31))
  | .clear i | .destroy i => returns i

end Vectors

namespace VectorOp
variable {T : Type} [Inhabited T]

/-- List i, which is empty where there is none. -/
def listAt (ls : List (Option (List T))) (i : ℕ) : List T := (ls[i]?.join).getD []

/-- What the call makes of the lists. -/
def onLists (ls : List (Option (List T))) : VectorOp T → List (Option (List T))
  | create | createSized _ => ls ++ [some []]
  | copy j => ls ++ [some (listAt ls j)]
  | assign i j => ls.set i (some (listAt ls j))
  | pushBack i val => ls.set i (some (listAt ls i ++ [val]))
  | erase i ind => ls.set i (some ((listAt ls i).eraseIdx ind))
  | resize i n =>
    ls.set i (some ((listAt ls i).take n ++ List.replicate (n-(listAt ls i).length) default))
  | reserve i _ => ls.set i (some (listAt ls i))
  | clear i => ls.set i (some [])
  | destroy i => ls.set i none

def Means (ls : List (Option (List T))) (op : VectorOp T) (_ : Unit) (ls' : List (Option (List T))) :
    Prop :=
  ls' = op.onLists ls

end VectorOp

namespace JhVector
variable {T : Type}

/-- The objects in the first slots, as many as there are elements. -/
def objects (v : JhVector) (h : ObjectSlots T) : List (ℕ × T) := ((v.slots h).take v.mSize).reduceOption

/-- The vector shows this list: the first slots hold its elements, the others are raw, and the
observers say so. -/
structure Shows (h : ObjectSlots T) (v : JhVector) (l : List T) : Prop where
  le : v.mSize ≤ v.mAllocated
  slots : v.slots h = (v.objects h).map some ++ List.replicate (v.mAllocated-v.mSize) none
  elements : (v.objects h).map Prod.snd = l
  get : ∀ i x, l[i]? = some x → v.get h i = .ok x
  size : v.size = l.length
  isEmpty : v.isEmpty = l.isEmpty

end JhVector

namespace Vectors
variable {T : Type}

/-- The numbers of the objects in each vector. -/
def numbers (s : Vectors T) : List (List ℕ) :=
  s.vecs.map fun o => o.elim [] fun v => (v.objects s.slots).map Prod.fst

/-- The lists that the vectors stand for. -/
def lists (s : Vectors T) : List (Option (List T)) :=
  s.vecs.map fun o => o.map fun v => (v.objects s.slots).map Prod.snd

/-- Each vector shows its list, and of all objects that have been constructed each is in one slot of
one vector, or has been destroyed once. -/
structure Refines (s : Vectors T) (ls : List (Option (List T))) : Prop where
  shows : List.Forall₂ (Option.Rel (JhVector.Shows s.slots)) s.vecs ls
  once : (s.numbers.flatten ++ s.slots.dead).Perm (List.range s.slots.born)

/-- The vectors have their objects in buffers of their own. -/
structure Ok (s : Vectors T) : Prop where
  has : ∀ (i : ℕ) (v : JhVector), s.vecs[i]? = some (some v) → v.Has s.slots (v.objects s.slots)
  apart : ∀ (i j : ℕ) (v w : JhVector) (p : ℕ), i ≠ j → s.vecs[i]? = some (some v) →
    s.vecs[j]? = some (some w) → v.mData = some p → w.mData ≠ some p
  once : (s.numbers.flatten ++ s.slots.dead).Perm (List.range s.slots.born)

end Vectors

namespace JhVector
variable {T : Type} {v : JhVector} {h h' : ObjectSlots T} {xs : List (ℕ × T)}

theorem Has.objects_eq (hv : v.Has h xs) : v.objects h = xs := by
  rw [objects, hv.slots, List.take_left' (by rw [List.length_map, hv.size])]
  exact List.filterMap_map.trans List.filterMap_some

theorem Has.shows (hv : v.Has h xs) : Shows h v (xs.map Prod.snd) := by
  have hobjects := hv.objects_eq
  constructor
  case le => exact hv.le
  case slots => rw [hobjects, hv.slots]
  case elements => rw [hobjects]
  case get =>
    intro i x hx
    rw [List.getElem?_map] at hx
    obtain ⟨z,hz,rfl⟩ := Option.map_eq_some_iff.mp hx
    exact hv.get hz
  case size => rw [JhVector.size, hv.size, List.length_map]
  case isEmpty =>
    rw [JhVector.isEmpty, hv.size]
    cases xs <;> simp

end JhVector

namespace Vectors
variable {T : Type} {s : Vectors T} {i j : ℕ}

theorem Ok.refines (hs : s.Ok) : s.Refines s.lists := by
  refine ⟨?_,hs.once⟩
  rw [lists, List.forall₂_map_right_iff, List.forall₂_same]
  intro o ho
  cases o with
  | none => exact .none
  | some v =>
    obtain ⟨i,hi⟩ := List.getElem?_of_mem ho
    exact .some (hs.has i v hi).shows

theorem start_ok : (start : Vectors T).Ok := by
  constructor
  · intro i v hi
    cases hi
  · intro i j v w p _ hi
    cases hi
  · simp [start, numbers, empty]

section OneVector
variable {o o' : Option JhVector} {h' : ObjectSlots T} {xs ys : List (ℕ × T)}

/-- A call on one vector leaves the others alone. -/
theorem Ok.keep (hs : s.Ok) (hi : s.vecs[i]? = some o)
    (hb : JhVector.Becomes (o.getD JhVector.blank) s.slots xs (o'.getD JhVector.blank) h' ys)
    {w : JhVector} (hj : j ≠ i) (hw : s.vecs[j]? = some (some w)) : w.Has h' (w.objects s.slots) := by
  apply (hs.has j w hw).keep
  intro p hp
  apply hb.frame p ((hs.has j w hw).lt_made hp)
  intro hv
  cases o with
  | none => cases hv
  | some v => exact hs.apart j i w v p hj hw hi hp hv.symm

/-- A buffer of its own stays, and one that has just been made is no other vector's. -/
theorem Ok.keep_apart (hs : s.Ok) (hi : s.vecs[i]? = some o)
    (hb : JhVector.Becomes (o.getD JhVector.blank) s.slots xs (o'.getD JhVector.blank) h' ys)
    {v w : JhVector} {p : ℕ} (hj : j ≠ i) (hv : o' = some v) (hw : s.vecs[j]? = some (some w))
    (hp : v.mData = some p) : w.mData ≠ some p := by
  subst hv
  intro hwp
  rcases hb.data p hp with hold | hnew
  · cases o with
    | none => cases hold
    | some u => exact hs.apart j i w u p hj hw hi hwp hold
  · exact absurd ((hs.has j w hw).lt_made hwp) (not_lt.mpr hnew)

/-- What is made of the vectors, when they are looked at through their objects. -/
theorem Ok.map_set (hs : s.Ok) (hi : s.vecs[i]? = some o)
    (hb : JhVector.Becomes (o.getD JhVector.blank) s.slots xs (o'.getD JhVector.blank) h' ys)
    {β : Type} (d : β) (f : List (ℕ × T) → β) :
    (s.vecs.set i o').map (fun o => o.elim d fun v => f (v.objects h')) =
      (s.vecs.map fun o => o.elim d fun v => f (v.objects s.slots)).set i (o'.elim d fun _ => f ys) := by
  have hnew : (o'.elim d fun v => f (v.objects h')) = o'.elim d fun _ => f ys := by
    cases o' with
    | none => rfl
    | some v => exact congrArg f hb.has.objects_eq
  rw [← hnew]
  apply map_set_of_agree
  intro j a hj ha
  cases a with
  | none => rfl
  | some w => exact congrArg f (hs.keep hi hb hj ha).objects_eq

/-- What a call on one vector does to all of them. -/
theorem Ok.become (hs : s.Ok) (hi : s.vecs[i]? = some o) (o' : Option JhVector)
    (hxs : (o.getD JhVector.blank).objects s.slots = xs)
    (hb : JhVector.Becomes (o.getD JhVector.blank) s.slots xs (o'.getD JhVector.blank) h' ys) :
    Ok ⟨s.vecs.set i o',h'⟩ ∧
      lists ⟨s.vecs.set i o',h'⟩ = s.lists.set i (o'.map fun _ => ys.map Prod.snd) := by
  have hlt : i < s.vecs.length := (List.getElem?_eq_some_iff.mp hi).1
  refine ⟨⟨?_,?_,?_⟩,?_⟩
  · intro j w hw
    rcases of_getElem?_set hlt hw with ⟨-,rfl⟩ | ⟨hj,hw⟩
    · rw [show w.objects h' = ys from hb.has.objects_eq]
      exact hb.has
    · have hkept := hs.keep hi hb hj hw
      rwa [hkept.objects_eq]
    -- two buffers that may be one: those of the vector and of another, either way round
  · have happart := apart_set (R := fun a c => ∀ v w p, a = some v → c = some w → v.mData = some p →
        w.mData ≠ some p) (b := o') hlt
      (fun j k a c hjk ha hc v w p hav hcw =>
        hs.apart j k v w p hjk (hav ▸ ha) (hcw ▸ hc))
      (fun j a hj ha =>
        ⟨fun v w p hav hw hp hwp => hs.keep_apart hi hb hj hw (hav ▸ ha) hwp hp,
          fun v w p hv haw hp => hs.keep_apart hi hb hj hv (haw ▸ ha) hp⟩)
    exact fun j k v w p hjk hv hw => happart j k _ _ hjk hv hw v w p rfl rfl
  · obtain ⟨k,ds,hborn,hdead,hperm⟩ := hb.once
    have hnumbers : numbers ⟨s.vecs.set i o',h'⟩ = s.numbers.set i (ys.map Prod.fst) := by
      have hset := hs.map_set hi hb [] (List.map Prod.fst)
      have hput : (o'.elim [] fun _ => ys.map Prod.fst) = ys.map Prod.fst := by
        cases o' with
        | none => rw [← hb.has.objects_eq]; rfl
        | some v => rfl
      rwa [hput] at hset
    -- what the vector held before the call
    have hold : s.numbers[i]? = some (xs.map Prod.fst) := by
      rw [numbers, List.getElem?_map, hi, Option.map_some, ← hxs]
      cases o <;> rfl
    show ((numbers ⟨s.vecs.set i o',h'⟩).flatten ++ h'.dead).Perm (List.range h'.born)
    rw [hnumbers, hdead, hborn]
    exact flatten_set_range hold hs.once hperm
  · have helim {o : Option JhVector} (f : JhVector → List T) : o.map f = o.elim none fun v => some (f v) := by
      cases o <;> rfl
    simp only [lists, helim]
    exact hs.map_set hi hb none fun xs => some (xs.map Prod.snd)

end OneVector

theorem vec_eq_ok {v : JhVector} : s.vec i = .ok v ↔ s.vecs[i]? = some (some v) := by
  rw [vec]
  split <;> simp_all

theorem lists_at (i : ℕ) {v : JhVector} (hi : s.vecs[i]? = some (some v)) :
    VectorOp.listAt s.lists i = (v.objects s.slots).map Prod.snd := by
  rw [VectorOp.listAt, lists, List.getElem?_map, hi]
  rfl

/-- A call that is one of the vector's own. -/
theorem Ok.call (hs : s.Ok) {v : JhVector} (hi : s.vecs[i]? = some (some v))
    {f : JhVector → ObjectSlots T → Except SlotFault (JhVector × ObjectSlots T)} {l : List T}
    (hf : ∃ v' h' ys, f v s.slots = .ok (v',h') ∧
      JhVector.Becomes v s.slots (v.objects s.slots) v' h' ys ∧ ys.map Prod.snd = l) :
    ∃ s', s.call i f = .ok ((),s') ∧ s'.Ok ∧ s'.lists = s.lists.set i (some l) := by
  obtain ⟨v',h',ys,hcall,hb,rfl⟩ := hf
  obtain ⟨hok,hlists⟩ := hs.become hi (some v') rfl hb
  refine ⟨_,?_,hok,hlists⟩
  rw [Vectors.call, vec_eq_ok.mpr hi, ok_bind, hcall]
  rfl

/-- A new vector. -/
theorem Ok.add (hs : s.Ok) {v' : JhVector} {h' : ObjectSlots T} {ys : List (ℕ × T)}
    (hb : JhVector.Becomes JhVector.blank s.slots [] v' h' ys) :
    (s.add (v',h')).2.Ok ∧ (s.add (v',h')).2.lists = s.lists ++ [some (ys.map Prod.snd)] := by
  have hgrown : Ok ⟨s.vecs ++ [none],s.slots⟩ := by
    refine ⟨?_,?_,?_⟩
    · intro i v hi
      exact hs.has i v (by grind)
    · intro i j v w p hij hi hj
      exact hs.apart i j v w p hij (by grind) (by grind)
    · have hnumbers : numbers ⟨s.vecs ++ [none],s.slots⟩ = s.numbers ++ [[]] := by
        simp [numbers]
      rw [hnumbers]
      simpa using hs.once
  obtain ⟨hok,hlists⟩ := hgrown.become (i := s.vecs.length) (o := none) (by simp)
    (some v') (JhVector.blank_has _).objects_eq hb
  have hset : (s.vecs ++ [none]).set s.vecs.length (some v') = s.vecs ++ [some v'] := by simp
  rw [hset] at hok hlists
  refine ⟨hok,hlists.trans ?_⟩
  simp [lists]

/-- One call does to the vectors what it means for the lists. -/
theorem Ok.step [Inhabited T] (hs : s.Ok) {op : VectorOp T} (ha : s.Admits op) :
    ∃ s', s.step op = .ok ((),s') ∧ s'.Ok ∧ s'.lists = op.onLists s.lists := by
  cases op with
  | create => exact ⟨_,rfl,hs.add (JhVector.createSized_becomes s.slots (by decide))⟩
  | createSized n =>
    have hn : n < 2^31 := ha
    exact ⟨_,rfl,hs.add (JhVector.createSized_becomes s.slots (by omega))⟩
  | copy j =>
    obtain ⟨w,hw⟩ := ha
    have hj := vec_eq_ok.mp hw
    -- the copy starts as a vector with no buffer
    obtain ⟨v',h',ys,hcopy,hb,hvals⟩ := JhVector.assign_becomes (JhVector.blank_has s.slots)
      (hs.has j w hj) (fun p _ hp => by cases hp)
    obtain ⟨hok,hlists⟩ := hs.add hb
    refine ⟨_,?_,hok,?_⟩
    · rw [Vectors.step, hw, ok_bind, JhVector.copy, show (⟨0,none,0⟩ : JhVector) = JhVector.blank from rfl,
        hcopy, ok_bind]
    · rw [hlists, VectorOp.onLists, lists_at j hj, hvals]
  | assign i j =>
    obtain ⟨hij,⟨v,hv⟩,w,hw⟩ := ha
    have hi := vec_eq_ok.mp hv
    have hj := vec_eq_ok.mp hw
    obtain ⟨s',hcall,hok,hlists⟩ := hs.call hi (f := fun v h => v.assign h w) (JhVector.assign_becomes
      (hs.has i v hi) (hs.has j w hj) fun p hp => hs.apart j i w v p hij.symm hj hi hp)
    refine ⟨s',?_,hok,?_⟩
    · rw [Vectors.step, hw, ok_bind, hcall]
    · rw [hlists, VectorOp.onLists, lists_at j hj]
  | pushBack i val =>
    obtain ⟨v,hv,hsmall⟩ := ha
    have hi := vec_eq_ok.mp hv
    obtain ⟨s',hcall,hok,hlists⟩ := hs.call hi (f := fun v h => v.pushBack h val)
      (JhVector.pushBack_becomes (hs.has i v hi) hsmall val)
    exact ⟨s',hcall,hok,by rw [hlists, VectorOp.onLists, lists_at i hi]⟩
  | erase i ind =>
    obtain ⟨v,hv,hind⟩ := ha
    have hi := vec_eq_ok.mp hv
    obtain ⟨s',hcall,hok,hlists⟩ := hs.call hi (f := fun v h => v.erase h ind)
      (JhVector.erase_becomes (hs.has i v hi) hind)
    exact ⟨s',hcall,hok,by rw [hlists, VectorOp.onLists, lists_at i hi]⟩
  | resize i n =>
    obtain ⟨⟨v,hv⟩,hsmall⟩ := ha
    have hi := vec_eq_ok.mp hv
    obtain ⟨s',hcall,hok,hlists⟩ := hs.call hi (f := fun v h => v.resize h n)
      (JhVector.resize_becomes (hs.has i v hi) hsmall)
    exact ⟨s',hcall,hok,by rw [hlists, VectorOp.onLists, lists_at i hi, List.length_map]⟩
  | reserve i n =>
    obtain ⟨⟨v,hv⟩,hsmall⟩ := ha
    have hi := vec_eq_ok.mp hv
    obtain ⟨s',hcall,hok,hlists⟩ := hs.call hi (f := fun v h => v.reserve h n)
      (JhVector.reserve_becomes (hs.has i v hi) (show n < 2^32 by omega))
    exact ⟨s',hcall,hok,by rw [hlists, VectorOp.onLists, lists_at i hi]⟩
  | clear i =>
    obtain ⟨v,hv⟩ := ha
    have hi := vec_eq_ok.mp hv
    obtain ⟨h',hclear,hb⟩ := JhVector.clear_becomes (hs.has i v hi)
    exact hs.call hi ⟨_,h',[],hclear,hb,rfl⟩
  | destroy i =>
    obtain ⟨v,hv⟩ := ha
    have hi := vec_eq_ok.mp hv
    obtain ⟨h',hdestroy,hb⟩ := JhVector.destroy_becomes (hs.has i v hi)
    obtain ⟨hok,hlists⟩ := hs.become hi none rfl hb
    refine ⟨_,?_,hok,hlists⟩
    rw [Vectors.step, hv, ok_bind, hdestroy]
    rfl

/-- Every run of calls returns, and shows at each point the lists that the same operations on lists
make, with the objects in place and none destroyed twice. When all vectors have been destroyed, every
object has been, once. -/
theorem vectors_refine [Inhabited T] (ops : List (VectorOp T)) (hg : Guarded Vectors.step Admits start ops) :
    Simulated Vectors.step VectorOp.Means Refines (start : Vectors T) [] ops ∧
      ∃ os s, run Vectors.step start ops = .ok (os,s) ∧
        ((∀ o ∈ s.vecs, o = none) → s.slots.dead.Perm (List.range s.slots.born)) := by
  have hstep : ∀ (s : Vectors T) ls (op : VectorOp T), s.Ok ∧ ls = s.lists → s.Admits op →
      ∃ o s' ls', Vectors.step s op = .ok (o,s') ∧ op.Means ls o ls' ∧ s'.Ok ∧ ls' = s'.lists := by
    rintro s _ op ⟨hs,rfl⟩ ha
    obtain ⟨s',hstep,hok,hlists⟩ := hs.step ha
    exact ⟨(),s',_,hstep,hlists,hok,rfl⟩
  constructor
  · apply Simulated.mono _ (simulated_of_guarded _ hstep ⟨start_ok,rfl⟩ ops hg)
    rintro s _ ⟨hs,rfl⟩
    exact hs.refines
  · obtain ⟨os,s,_,hrun,-,hs,-⟩ := run_simulates_guarded _ _ hstep ⟨start_ok,rfl⟩ ops hg
    refine ⟨os,s,hrun,?_⟩
    intro hgone
    have hnone : s.numbers.flatten = [] := by
      rw [List.flatten_eq_nil_iff]
      intro l hl
      obtain ⟨o,ho,rfl⟩ := List.mem_map.mp hl
      rw [hgone o ho]
      rfl
    simpa [hnone] using hs.once

/-- Two numbers are put into a vector without room, it is copied, and one is erased. -/
theorem vectors_refine_two : Simulated Vectors.step VectorOp.Means Refines (start : Vectors ℕ) []
    [.createSized 0,.pushBack 0 7,.pushBack 0 8,.copy 0,.erase 1 0,.destroy 0,.destroy 1] ∧
      ∃ os s, run Vectors.step start
        [.createSized 0,.pushBack 0 7,.pushBack 0 8,.copy 0,.erase 1 0,.destroy 0,.destroy 1] = .ok (os,s) ∧
        ((∀ o ∈ s.vecs, o = none) → s.slots.dead.Perm (List.range s.slots.born)) :=
  vectors_refine _ (guarded_of_meets (by decide))

end Vectors

end JhCommon
