import JhCommon.DepthFirst
import JhCommon.Reflect

/-! The methods of a class and of its parents, as `ClassInfo` finds them by name and lists them. A method
is known by the class that declares it and its place there. -/
namespace JhCommon
open DepthFirst

/-- Classes, whose parents have parents of their own, up to some that have none. -/
structure ClassHierarchy where
  classInfo : ℕ → ClassInfo
  acyclic : WellFounded fun p c => p ∈ (classInfo c).mParents

/-- The loop of `getMethod` over the methods of the class itself, which does not stop at the first. -/
def lastNamed (name : Str) : List Method → ℕ → Option ℕ → Option ℕ
  | [], _, m => m
  | x :: xs, i, m => lastNamed name xs (i+1) (if x.mName = name then some i else m)

namespace ClassHierarchy

def getMethod (g : ClassHierarchy) (name : Str) (c : ℕ) : Option (ℕ × ℕ) :=
  match lastNamed name (g.classInfo c).mMethods 0 none with
  -- a method of the class itself hides those of its parents
  | some i => some (c,i)
  | none => (g.classInfo c).mParents.attach.findSome? fun p => g.getMethod name p.1
termination_by g.acyclic.wrap c
decreasing_by exact p.2

def getMethods (g : ClassHierarchy) (c : ℕ) : List (ℕ × ℕ) :=
  (List.range (g.classInfo c).mMethods.length).map (c,·)

def getAllMethods (g : ClassHierarchy) (c : ℕ) : List (ℕ × ℕ) :=
  -- the parents' own methods, and not what they inherit
  (g.classInfo c).mParents.flatMap g.getMethods ++ g.getMethods c

/-- The method at a place is there, and has this name. -/
def Named (g : ClassHierarchy) (name : Str) (m : ℕ × ℕ) : Prop :=
  ∃ x, (g.classInfo m.1).mMethods[m.2]? = some x ∧ x.mName = name

/-- What is found by name is what is listed with that name, and listed itself. -/
structure Consistent (g : ClassHierarchy) (name : Str) (c : ℕ) : Prop where
  found : (g.getMethod name c).isSome ↔ ∃ m ∈ g.getAllMethods c, g.Named name m
  listed : ∀ m, g.getMethod name c = some m → m ∈ g.getAllMethods c

def declares (g : ClassHierarchy) (name : Str) (c : ℕ) : Bool :=
  (g.classInfo c).mMethods.any fun x => x.mName = name

/-- The first class that declares the method, from left to right and each before its parents, is the class
itself or a parent, if there is one. -/
def Near (g : ClassHierarchy) (name : Str) (c : ℕ) : Prop :=
  ∀ d, (preorder g.acyclic c).find? (g.declares name) = some d → d = c ∨ d ∈ (g.classInfo c).mParents

variable {g : ClassHierarchy} {name : Str} {c d i : ℕ} {m : ℕ × ℕ}

/-- The loop comes to the last method of that name, or keeps what it had. -/
theorem lastNamed_cases (name : Str) (xs : List Method) (i : ℕ) (m : Option ℕ) :
    (lastNamed name xs i m = m ∧ ∀ x ∈ xs, x.mName ≠ name) ∨
      ∃ j x, lastNamed name xs i m = some (i+j) ∧ xs[j]? = some x ∧ x.mName = name := by
  induction xs generalizing i m with
  | nil => exact .inl ⟨rfl,fun _ hx => by cases hx⟩
  | cons x xs ih =>
    rw [lastNamed]
    rcases ih (i+1) (if x.mName = name then some i else m) with ⟨heq,hnone⟩ | ⟨j,y,heq,hy,hname⟩
    -- nothing behind the first one: it is the last, if it has the name
    · by_cases hx : x.mName = name
      · exact .inr ⟨0,x,by rw [heq, if_pos hx]; rfl,rfl,hx⟩
      · refine .inl ⟨by rw [heq, if_neg hx],?_⟩
        exact List.forall_mem_cons.mpr ⟨hx,hnone⟩
    · exact .inr ⟨j+1,y,by rw [heq, Nat.add_assoc, Nat.add_comm 1],hy,hname⟩

theorem getMethod_eq (g : ClassHierarchy) (name : Str) (c : ℕ) : g.getMethod name c =
    match lastNamed name (g.classInfo c).mMethods 0 none with
    | some i => some (c,i)
    | none => (g.classInfo c).mParents.findSome? (g.getMethod name) := by
  rw [getMethod]
  simp

/-- A class that declares the method finds one of its own, and any other asks its parents. -/
theorem getMethod_cases (g : ClassHierarchy) (name : Str) (c : ℕ) :
    (g.declares name c = true ∧ ∃ i, g.getMethod name c = some (c,i) ∧ g.Named name (c,i)) ∨
      g.declares name c = false ∧
        g.getMethod name c = (g.classInfo c).mParents.findSome? (g.getMethod name) := by
  rw [getMethod_eq]
  rcases lastNamed_cases name (g.classInfo c).mMethods 0 none with ⟨heq,hnone⟩ | ⟨j,x,heq,hx,hname⟩
  · rw [heq]
    refine .inr ⟨?_,rfl⟩
    simpa [declares] using hnone
  · rw [heq, Nat.zero_add]
    refine .inl ⟨?_,j,rfl,x,hx,hname⟩
    exact List.any_eq_true.mpr ⟨x,List.mem_of_getElem? hx,decide_eq_true hname⟩

/-- A method is found in the first class that declares it. -/
theorem getMethod_class (g : ClassHierarchy) (name : Str) (c : ℕ) :
    (g.getMethod name c).map Prod.fst = (preorder g.acyclic c).find? (g.declares name) := by
  induction c using g.acyclic.induction with
  | _ c ih =>
    rw [find?_preorder]
    -- both stop at the class, or go on to its parents from left to right
    rcases getMethod_cases g name c with ⟨hdeclares,i,hfound,-⟩ | ⟨hdeclares,hparents⟩
    · rw [hfound, if_pos hdeclares]
      rfl
    · rw [hparents, if_neg (by rw [hdeclares]; exact Bool.false_ne_true), List.map_findSome?,
        ← List.head?_filterMap, ← List.head?_filterMap]
      congr 1
      exact List.filterMap_congr ih

theorem getMethod_named (h : g.getMethod name c = some m) : g.Named name m := by
  induction c using g.acyclic.induction with
  | _ c ih =>
    rcases getMethod_cases g name c with ⟨-,i,hfound,hnamed⟩ | ⟨-,hparents⟩
    · obtain rfl := Option.some.inj (hfound.symm.trans h)
      exact hnamed
    · rw [hparents] at h
      obtain ⟨p,hp,hpm⟩ := List.exists_of_findSome?_eq_some h
      exact ih p hp hpm

theorem mem_getMethods : (d,i) ∈ g.getMethods c ↔ d = c ∧ i < (g.classInfo c).mMethods.length := by
  simp [getMethods, eq_comm, and_comm]

/-- The methods of the class and of its parents are listed. -/
theorem mem_getAllMethods : (d,i) ∈ g.getAllMethods c ↔
    (d = c ∨ d ∈ (g.classInfo c).mParents) ∧ i < (g.classInfo d).mMethods.length := by
  simp only [getAllMethods, List.mem_append, List.mem_flatMap, mem_getMethods]
  constructor
  · rintro (⟨p,hp,rfl,hi⟩ | ⟨rfl,hi⟩)
    · exact ⟨.inr hp,hi⟩
    · exact ⟨.inl rfl,hi⟩
  · rintro ⟨rfl | hd,hi⟩
    · exact .inr ⟨rfl,hi⟩
    · exact .inl ⟨d,hd,rfl,hi⟩

theorem Named.lt (h : g.Named name m) : m.2 < (g.classInfo m.1).mMethods.length := by
  obtain ⟨x,hx,-⟩ := h
  exact (List.getElem?_eq_some_iff.mp hx).1

theorem Named.declares (h : g.Named name m) : g.declares name m.1 = true := by
  obtain ⟨x,hx,hname⟩ := h
  exact List.any_eq_true.mpr ⟨x,List.mem_of_getElem? hx,decide_eq_true hname⟩

/-- The two agree on a method just when no class behind the parents declares it first. -/
theorem consistent_iff_near (g : ClassHierarchy) (name : Str) (c : ℕ) :
    g.Consistent name c ↔ g.Near name c := by
  have hclass := getMethod_class g name c
  constructor
  · intro h d hd
    rw [hd] at hclass
    obtain ⟨⟨d',i⟩,hm,rfl⟩ := Option.map_eq_some_iff.mp hclass
    exact (mem_getAllMethods.mp (h.listed _ hm)).1
  · intro h
    have hlisted (m : ℕ × ℕ) (hm : g.getMethod name c = some m) : m ∈ g.getAllMethods c := by
      rw [hm, Option.map_some] at hclass
      exact mem_getAllMethods.mpr ⟨h m.1 hclass.symm,(getMethod_named hm).lt⟩
    refine ⟨⟨?_,?_⟩,hlisted⟩
    · intro hsome
      obtain ⟨m,hm⟩ := Option.isSome_iff_exists.mp hsome
      exact ⟨m,hlisted m hm,getMethod_named hm⟩
    -- a listed class is met on the walk, so that the walk finds one
    · rintro ⟨⟨d,i⟩,hm,hnamed⟩
      have hmem : d ∈ preorder g.acyclic c := by
        rcases (mem_getAllMethods.mp hm).1 with rfl | hparent
        · exact self_mem
        · exact mem_of_next hparent self_mem
      have hfound : ((preorder g.acyclic c).find? (g.declares name)).isSome := by
        rw [List.find?_isSome]
        exact ⟨d,hmem,hnamed.declares⟩
      rw [← hclass, Option.isSome_map] at hfound
      exact hfound

/-- A class with a parent that has a parent, which declares x. -/
def threeClasses : ClassHierarchy where
  classInfo c :=
    if c = 0 then ⟨['A'],[1],[],[],[]⟩
    else if c = 1 then ⟨['B'],[2],[],[],[]⟩
    else ⟨['C'],[],[⟨['x'],none,[],false⟩],[],[]⟩
  acyclic := by
    apply Subrelation.wf _ (measure fun c => 2-c).wf
    intro p c hp
    show 2-p < 2-c
    split_ifs at hp with h0 h1
    · obtain rfl := List.mem_singleton.mp hp
      omega
    · obtain rfl := List.mem_singleton.mp hp
      omega
    · cases hp

/-- The method of the grandparent is found, and not listed. -/
theorem grandparent_not_consistent : ¬threeClasses.Consistent ['x'] 0 := by
  have hgrandparent : threeClasses.getMethod ['x'] 2 = some (2,0) := by
    rw [getMethod_eq]
    rfl
  have hparent : threeClasses.getMethod ['x'] 1 = some (2,0) := by
    rw [getMethod_eq]
    show List.findSome? (threeClasses.getMethod ['x']) [2] = some (2,0)
    rw [List.findSome?_cons, hgrandparent]
  have hfound : threeClasses.getMethod ['x'] 0 = some (2,0) := by
    rw [getMethod_eq]
    show List.findSome? (threeClasses.getMethod ['x']) [1] = some (2,0)
    rw [List.findSome?_cons, hparent]
  intro h
  exact absurd (h.listed _ hfound) (by decide)

end ClassHierarchy

end JhCommon
