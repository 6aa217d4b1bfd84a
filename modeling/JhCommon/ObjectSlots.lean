import JhCommon.CellHeap

/-! Buffers of raw storage in which objects are constructed and destroyed one by one. A slot holds
an object or is raw, and each object has a number of its own. What is done to a slot that is not
meant for it does not return. -/
namespace JhCommon

inductive SlotFault
  | noBuffer
  | noSlot
  | live
  | raw
  | abort
  deriving DecidableEq, Repr

/-- The loop over i, i+1, .., n-1. -/
def forRange {ε σ : Type} (i n : ℕ) (body : ℕ → σ → Except ε σ) (s : σ) : Except ε σ :=
  (List.range' i (n-i)).foldlM (fun s k => body k s) s

section Loops
variable {ε σ : Type} {i n : ℕ} {body : ℕ → σ → Except ε σ} {s : σ}

theorem forRange_of_le (h : n ≤ i) : forRange i n body s = .ok s := by
  rw [forRange, Nat.sub_eq_zero_of_le h]
  rfl

theorem forRange_of_lt (h : i < n) :
    forRange i n body s = body i s >>= forRange (i+1) n body := by
  obtain ⟨k,rfl⟩ := Nat.exists_eq_add_of_lt h
  have hcount : i+k+1-i = k+1 := by omega
  have hrest : i+k+1-(i+1) = k := by omega
  rw [forRange, hcount, List.range'_succ, List.foldlM_cons]
  congr 1
  funext s'
  rw [forRange, hrest]

/-- The first turn of a loop, when it returns. -/
theorem forRange_step {s' : σ} (h : i < n) (hbody : body i s = .ok s') :
    forRange i n body s = forRange (i+1) n body s' := by
  rw [forRange_of_lt h, hbody, ok_bind]

end Loops

structure ObjectSlots (T : Type) where
  bufs : CellHeap (List (Option (ℕ × T)))
  born : ℕ
  dead : List ℕ

namespace ObjectSlots
variable {T : Type}

def empty : ObjectSlots T := ⟨.empty,0,[]⟩

/-- A buffer of n raw slots. -/
def newBuf (h : ObjectSlots T) (n : ℕ) : ℕ × ObjectSlots T :=
  let (p,bufs) := h.bufs.alloc (List.replicate n none)
  (p,{ h with bufs := bufs })

def deleteBuf (h : ObjectSlots T) (p : ℕ) : Except SlotFault (ObjectSlots T) :=
  match h.bufs.cells p with
  | none => .error .noBuffer
  | some _ => .ok { h with bufs := h.bufs.clear p }

/-- Slot i of buffer p, if there is one. -/
def slot (h : ObjectSlots T) (p i : ℕ) : Option (Option (ℕ × T)) := (h.bufs.cells p).bind (·[i]?)

def fill (h : ObjectSlots T) (p i : ℕ) (x : Option (ℕ × T)) : ObjectSlots T :=
  { h with bufs := h.bufs.modify p (·.set i x) }

/-- Placement construction of an object with this value. -/
def construct (h : ObjectSlots T) (p i : ℕ) (val : T) : Except SlotFault (ObjectSlots T) :=
  match h.slot p i with
  | none => .error .noSlot
  | some (some _) => .error .live
  | some none => .ok { h.fill p i (some (h.born,val)) with born := h.born+1 }

/-- An explicit destructor call. -/
def destroy (h : ObjectSlots T) (p i : ℕ) : Except SlotFault (ObjectSlots T) :=
  match h.slot p i with
  | none => .error .noSlot
  | some none => .error .raw
  | some (some x) => .ok { h.fill p i none with dead := h.dead ++ [x.1] }

def read (h : ObjectSlots T) (p i : ℕ) : Except SlotFault T :=
  match h.slot p i with
  | none => .error .noSlot
  | some none => .error .raw
  | some (some x) => .ok x.2

/-- Assignment to the object in a slot, which stays the same object. -/
def assign (h : ObjectSlots T) (p i : ℕ) (val : T) : Except SlotFault (ObjectSlots T) :=
  match h.slot p i with
  | none => .error .noSlot
  | some none => .error .raw
  | some (some x) => .ok (h.fill p i (some (x.1,val)))

/-- New objects with these values, numbered from b on. -/
def bear (b : ℕ) : List T → List (ℕ × T)
  | [] => []
  | v :: vs => (b,v) :: bear (b+1) vs

@[simp] theorem bear_length (b : ℕ) (vs : List T) : (bear b vs).length = vs.length := by
  induction vs generalizing b with
  | nil => rfl
  | cons v vs ih => rw [bear, List.length_cons, List.length_cons, ih]

@[simp] theorem bear_snd (b : ℕ) (vs : List T) : (bear b vs).map Prod.snd = vs := by
  induction vs generalizing b with
  | nil => rfl
  | cons v vs ih => rw [bear, List.map_cons, ih]

@[simp] theorem bear_fst (b : ℕ) (vs : List T) :
    (bear b vs).map Prod.fst = List.range' b vs.length := by
  induction vs generalizing b with
  | nil => rfl
  | cons v vs ih => rw [bear, List.map_cons, ih, List.length_cons, List.range'_succ]

/-- What has happened to the storage: only the buffers of S have changed, k objects have been
constructed, and those of ds have been destroyed. -/
structure Changes (h h' : ObjectSlots T) (S : Set ℕ) (k : ℕ) (ds : List ℕ) : Prop where
  frame : ∀ q ∉ S, h'.bufs.cells q = h.bufs.cells q
  made : h'.bufs.made = h.bufs.made
  born : h'.born = h.born+k
  dead : h'.dead = h.dead ++ ds

section Steps
variable {h h' h'' : ObjectSlots T} {S : Set ℕ} {p q i k j : ℕ} {ds es : List ℕ} {val : T}
  {l r : List (Option (ℕ × T))} {x : ℕ × T}

theorem Changes.refl (h : ObjectSlots T) (S : Set ℕ) : Changes h h S 0 [] :=
  ⟨fun _ _ => rfl,rfl,rfl,(List.append_nil _).symm⟩

theorem Changes.trans (hc : Changes h h' S k ds) (hc' : Changes h' h'' S j es) :
    Changes h h'' S (k+j) (ds ++ es) := by
  constructor
  case frame => exact fun q hq => (hc'.frame q hq).trans (hc.frame q hq)
  case made => exact hc'.made.trans hc.made
  case born => rw [hc'.born, hc.born, Nat.add_assoc]
  case dead => rw [hc'.dead, hc.dead, List.append_assoc]

theorem Changes.mono {R : Set ℕ} (hc : Changes h h' S k ds) (hS : S ⊆ R) : Changes h h' R k ds :=
  ⟨fun q hq => hc.frame q fun hqS => hq (hS hqS),hc.made,hc.born,hc.dead⟩

theorem slot_eq {s : Option (ℕ × T)} (hp : h.bufs.cells p = some (l ++ s :: r)) :
    h.slot p l.length = some s := by
  rw [slot, hp, Option.bind_some, List.getElem?_append_right (le_refl _), Nat.sub_self]
  rfl

theorem fill_here {s s' : Option (ℕ × T)} (hp : h.bufs.cells p = some (l ++ s :: r)) :
    (h.fill p l.length s').bufs.cells p = some (l ++ s' :: r) := by
  rw [fill, CellHeap.modify_cells, Function.update_self, hp, Option.map_some,
    List.set_append_right _ _ (le_refl _), Nat.sub_self, List.set_cons_zero]

theorem fill_other (s : Option (ℕ × T)) (hq : q ≠ p) :
    (h.fill p i s).bufs.cells q = h.bufs.cells q := by
  rw [fill, CellHeap.modify_cells, Function.update_of_ne hq]

theorem construct_ok (hp : h.bufs.cells p = some (l ++ none :: r)) (val : T) :
    ∃ h', h.construct p l.length val = .ok h' ∧
      h'.bufs.cells p = some (l ++ some (h.born,val) :: r) ∧ Changes h h' {p} 1 [] := by
  refine ⟨{ h.fill p l.length (some (h.born,val)) with born := h.born+1 },?_,fill_here hp,
    fun q hq => fill_other _ hq,rfl,rfl,(List.append_nil _).symm⟩
  rw [construct, slot_eq hp]

theorem destroy_ok (hp : h.bufs.cells p = some (l ++ some x :: r)) :
    ∃ h', h.destroy p l.length = .ok h' ∧ h'.bufs.cells p = some (l ++ none :: r) ∧
      Changes h h' {p} 0 [x.1] := by
  refine ⟨{ h.fill p l.length none with dead := h.dead ++ [x.1] },?_,fill_here hp,
    fun q hq => fill_other _ hq,rfl,rfl,rfl⟩
  rw [destroy, slot_eq hp]

theorem read_ok (hp : h.bufs.cells p = some (l ++ some x :: r)) : h.read p l.length = .ok x.2 := by
  rw [read, slot_eq hp]

theorem assign_ok (hp : h.bufs.cells p = some (l ++ some x :: r)) (val : T) :
    ∃ h', h.assign p l.length val = .ok h' ∧ h'.bufs.cells p = some (l ++ some (x.1,val) :: r) ∧
      Changes h h' {p} 0 [] := by
  refine ⟨_,?_,fill_here hp,fun q hq => fill_other _ hq,rfl,rfl,(List.append_nil _).symm⟩
  rw [assign, slot_eq hp]

end Steps

section Ranges
variable {h : ObjectSlots T} {p q : ℕ} {l r : List (Option (ℕ × T))} {xs : List (ℕ × T)}

/-- The objects in consecutive slots are destroyed. -/
theorem destroy_range (hp : h.bufs.cells p = some (l ++ xs.map some ++ r)) {i n : ℕ}
    (hi : i = l.length) (hn : n = i+xs.length) :
    ∃ h', forRange i n (fun k h => h.destroy p k) h = .ok h' ∧
      h'.bufs.cells p = some (l ++ List.replicate xs.length none ++ r) ∧
      Changes h h' {p} 0 (xs.map Prod.fst) := by
  induction xs generalizing h l i with
  | nil =>
    refine ⟨h,forRange_of_le (by simpa using hn.le),?_,.refl h _⟩
    simpa using hp
  | cons x xs ih =>
    subst hi
    have hp' : h.bufs.cells p = some (l ++ some x :: (xs.map some ++ r)) := by simpa using hp
    obtain ⟨h₁,hfirst,hp₁,hc₁⟩ := destroy_ok hp'
    obtain ⟨h',hrest,hp₂,hc₂⟩ := ih (h := h₁) (l := l ++ [none]) (i := l.length+1)
      (by simpa using hp₁) (by simp) (by simp at hn; omega)
    refine ⟨h',?_,?_,by simpa using hc₁.trans hc₂⟩
    · rw [forRange_step (by simp at hn; omega) hfirst, hrest]
    · simpa [List.replicate_succ] using hp₂

/-- New objects are constructed in consecutive raw slots, with values that the loop reads
elsewhere. -/
theorem construct_range (vs : List T) (val : ℕ → ObjectSlots T → Except SlotFault T)
    (hp : h.bufs.cells p = some (l ++ List.replicate vs.length none ++ r)) {i n : ℕ}
    (hi : i = l.length) (hn : n = i+vs.length)
    (hval : ∀ k v h', vs[k]? = some v → (∀ q, q ≠ p → h'.bufs.cells q = h.bufs.cells q) →
      val (i+k) h' = .ok v) :
    ∃ h', forRange i n (fun k h => val k h >>= fun v => h.construct p k v) h = .ok h' ∧
      h'.bufs.cells p = some (l ++ (bear h.born vs).map some ++ r) ∧
      Changes h h' {p} vs.length [] := by
  induction vs generalizing h l i with
  | nil =>
    refine ⟨h,forRange_of_le (by simpa using hn.le),?_,.refl h _⟩
    simpa [bear] using hp
  | cons v vs ih =>
    subst hi
    have hp' : h.bufs.cells p = some (l ++ none :: (List.replicate vs.length none ++ r)) := by
      simpa [List.replicate_succ] using hp
    obtain ⟨h₁,hfirst,hp₁,hc₁⟩ := construct_ok hp' v
    have hread : val l.length h = .ok v := hval 0 v h rfl fun _ _ => rfl
    obtain ⟨h',hrest,hp₂,hc₂⟩ := ih (h := h₁) (l := l ++ [some (h.born,v)]) (i := l.length+1)
      (by simpa using hp₁) (by simp) (by simp at hn; omega) (by
        -- the values lie outside of the buffer, so the first construction leaves them
        intro k w h₂ hw hsame
        rw [Nat.add_assoc, Nat.add_comm 1 k]
        apply hval (k+1) w h₂ hw
        intro q hq
        rw [hsame q hq, hc₁.frame q hq])
    refine ⟨h',?_,?_,?_⟩
    · rw [forRange_step (by simp at hn; omega) (by rw [hread, ok_bind, hfirst]), hrest]
    · rw [hp₂, hc₁.born]
      simp [bear]
    · have hc := hc₁.trans hc₂
      rwa [Nat.add_comm 1] at hc

/-- The objects of one buffer are copied to another one, and each is destroyed when it has been. -/
theorem move_range (ys : List (ℕ × T)) {m : ℕ} (hne : p ≠ q)
    (hq : h.bufs.cells q = some (l ++ xs.map some ++ r))
    (hp : h.bufs.cells p = some (ys.map some ++ List.replicate (xs.length+m) none)) {i n : ℕ}
    (hl : i = l.length) (hy : i = ys.length) (hn : n = i+xs.length) :
    ∃ h', forRange i n (fun k h => do
        let val ← h.read q k
        let h ← h.construct p k val
        h.destroy q k) h = .ok h' ∧
      h'.bufs.cells q = some (l ++ List.replicate xs.length none ++ r) ∧
      h'.bufs.cells p =
        some ((ys ++ bear h.born (xs.map Prod.snd)).map some ++ List.replicate m none) ∧
      Changes h h' {p,q} xs.length (xs.map Prod.fst) := by
  induction xs generalizing h l ys i with
  | nil =>
    refine ⟨h,forRange_of_le (by simpa using hn.le),?_,?_,.refl h _⟩
    · simpa using hq
    · simpa [bear] using hp
  | cons x xs ih =>
    subst hl
    have hq' : h.bufs.cells q = some (l ++ some x :: (xs.map some ++ r)) := by simpa using hq
    have hp' : h.bufs.cells p =
        some (ys.map some ++ none :: List.replicate (xs.length+m) none) := by
      rw [hp, List.length_cons, Nat.add_right_comm, List.replicate_succ]
    -- one pass copies x behind ys and then destroys it in its place
    obtain ⟨h₁,hfirst,hp₁,hc₁⟩ := construct_ok hp' x.2
    have hq₁ : h₁.bufs.cells q = some (l ++ some x :: (xs.map some ++ r)) := by
      rw [hc₁.frame q hne.symm, hq']
    obtain ⟨h₂,hsecond,hq₂,hc₂⟩ := destroy_ok hq₁
    have hp₂ : h₂.bufs.cells p = h₁.bufs.cells p := hc₂.frame p hne
    obtain ⟨h',hrest,hq₃,hp₃,hc₃⟩ := ih (ys ++ [(h.born,x.2)]) (h := h₂)
      (l := l ++ [none]) (i := l.length+1) (by simpa using hq₂)
      (by rw [hp₂, hp₁]; simp) (by simp) (by simpa using hy) (by simp at hn; omega)
    refine ⟨h',?_,?_,?_,?_⟩
    · rw [List.length_map, ← hy] at hfirst
      rw [forRange_step (by simp at hn; omega), hrest]
      rw [read_ok hq', ok_bind, hfirst, ok_bind, hsecond]
    · simpa [List.replicate_succ] using hq₃
    · rw [hp₃, hc₂.born, hc₁.born]
      simp [bear]
    · have hc := ((hc₁.mono (R := {p,q}) (by simp)).trans (hc₂.mono (by simp))).trans hc₃
      simpa [Nat.add_comm] using hc

/-- The objects with the values moved down by one; the last one keeps its own. -/
def shift : List (ℕ × T) → List (ℕ × T)
  | x :: y :: xs => (x.1,y.2) :: shift (y :: xs)
  | xs => xs

theorem shift_fst (xs : List (ℕ × T)) : (shift xs).map Prod.fst = xs.map Prod.fst := by
  induction xs with
  | nil => rfl
  | cons x xs ih =>
    cases xs with
    | nil => rfl
    | cons y xs =>
      rw [shift, List.map_cons, ih]
      rfl

theorem shift_snd (x : ℕ × T) (xs : List (ℕ × T)) :
    ∃ y, shift (x :: xs) = (shift (x :: xs)).dropLast ++ [y] ∧
      (shift (x :: xs)).dropLast.map Prod.snd = xs.map Prod.snd := by
  induction xs generalizing x with
  | nil => exact ⟨x,rfl,rfl⟩
  | cons y xs ih =>
    obtain ⟨z,hz,hvals⟩ := ih y
    have hne : shift (y :: xs) ≠ [] := by
      rw [hz]
      simp
    refine ⟨z,?_,?_⟩
    · rw [shift, List.dropLast_cons_of_ne_nil hne, List.cons_append, ← hz]
    · rw [shift, List.dropLast_cons_of_ne_nil hne, List.map_cons, hvals, List.map_cons]

/-- Each object but the last gets the value of the next one. -/
theorem shift_range {x : ℕ × T} (hp : h.bufs.cells p = some (l ++ (x :: xs).map some ++ r))
    {i n : ℕ} (hi : i = l.length) (hn : n = i+xs.length) :
    ∃ h', forRange i n (fun k h => do
        let val ← h.read p (k+1)
        h.assign p k val) h = .ok h' ∧
      h'.bufs.cells p = some (l ++ (shift (x :: xs)).map some ++ r) ∧
      Changes h h' {p} 0 [] := by
  induction xs generalizing h l i x with
  | nil => exact ⟨h,forRange_of_le (by simpa using hn.le),hp,.refl h _⟩
  | cons y xs ih =>
    subst hi
    have hx : h.bufs.cells p = some (l ++ some x :: (some y :: xs.map some ++ r)) := by
      simpa using hp
    have hy : h.bufs.cells p = some ((l ++ [some x]) ++ some y :: (xs.map some ++ r)) := by
      simpa using hp
    have hread : h.read p (l.length+1) = .ok y.2 := by
      have hread := read_ok hy
      rwa [List.length_append] at hread
    obtain ⟨h₁,hfirst,hp₁,hc₁⟩ := assign_ok hx y.2
    obtain ⟨h',hrest,hp₂,hc₂⟩ := ih (h := h₁) (l := l ++ [some (x.1,y.2)]) (i := l.length+1)
      (x := y) (by simpa using hp₁) (by simp) (by simp at hn; omega)
    refine ⟨h',?_,?_,hc₁.trans hc₂⟩
    · rw [forRange_step (by simp at hn; omega) (by rw [hread, ok_bind, hfirst]), hrest]
    · simpa [shift] using hp₂

/-- The value of one object is lost then, and the object behind the others is destroyed. -/
theorem erase_range {x : ℕ × T} (hp : h.bufs.cells p = some (l ++ (x :: xs).map some ++ r))
    {i n : ℕ} (hi : i = l.length) (hn : n = i+xs.length) :
    ∃ h₁ h', ∃ ys : List (ℕ × T), ∃ y, forRange i n (fun k h => do
        let val ← h.read p (k+1)
        h.assign p k val) h = .ok h₁ ∧ h₁.destroy p n = .ok h' ∧
      h'.bufs.cells p = some (l ++ ys.map some ++ none :: r) ∧ Changes h h' {p} 0 [y] ∧
      ys.map Prod.fst ++ [y] = (x :: xs).map Prod.fst ∧ ys.map Prod.snd = xs.map Prod.snd := by
  obtain ⟨h₁,hloop,hp₁,hc₁⟩ := shift_range hp hi hn
  obtain ⟨y,hy,hvals⟩ := shift_snd x xs
  generalize (shift (x :: xs)).dropLast = ys at hy hvals
  have hp₁' : h₁.bufs.cells p = some ((l ++ ys.map some) ++ some y :: r) := by
    rw [hp₁, hy]
    simp
  obtain ⟨h',hlast,hp',hc₂⟩ := destroy_ok hp₁'
  have hlen : (l ++ ys.map some).length = n := by
    have := congrArg List.length hvals
    rw [List.length_map, List.length_map] at this
    rw [List.length_append, List.length_map, hn, hi, this]
  rw [hlen] at hlast
  refine ⟨h₁,h',ys,y.1,hloop,hlast,hp',hc₁.trans hc₂,?_,hvals⟩
  rw [← shift_fst (x :: xs), hy, List.map_append]
  rfl

end Ranges

end ObjectSlots

end JhCommon
