import JhCommon.Variant

/-! Runs of calls on Variants and VariantConnectors: who holds which smart pointer, and what kind of
value was stored last. -/
namespace JhCommon
open Transition

def VariantValue.kind : VariantValue → VariantType
  | .char _ => .TYPE_CHAR
  | .int16 _ => .TYPE_INT16
  | .uint16 _ => .TYPE_UINT16
  | .int32 _ => .TYPE_INT32
  | .uint32 _ => .TYPE_UINT32
  | .int64 _ => .TYPE_INT64
  | .uint64 _ => .TYPE_UINT64
  | .float _ => .TYPE_FLOAT
  | .double _ => .TYPE_DOUBLE
  | .string _ => .TYPE_STRING
  | .object _ _ => .TYPE_OBJECT

/-- The kind of the value that was stored last in each Variant, and in each parameter of a
connector. -/
structure VariantKinds where
  vars : List (Option VariantType)
  connectors : List (Option (List VariantType))

/-- What an operation stores, and where. -/
def VariantOp.stores (t : VariantKinds) : VariantOp → VariantKinds
  | create => { t with vars := t.vars ++ [some .TYPE_NONE] }
  | construct x => { t with vars := t.vars ++ [some x.kind] }
  | copy w => { t with vars := t.vars ++ [(t.vars[w]?).join] }
  | assign v w => { t with vars := t.vars.set v (t.vars[w]?).join }
  | set v x => { t with vars := t.vars.set v (some x.kind) }
  | destroy v => { t with vars := t.vars.set v none }
  | connector => { t with connectors := t.connectors ++ [some []] }
  | push c x _ => { t with
      connectors := t.connectors.set c ((t.connectors[c]?).join.map fun ks => ks ++ [x.kind]) }
  | reset c => { t with connectors := t.connectors.set c (some []) }
  | disconnect c => { t with connectors := t.connectors.set c none }

def VariantOp.Means (t : VariantKinds) (op : VariantOp) (_ : Unit) (t' : VariantKinds) : Prop :=
  t' = op.stores t

namespace Variants
open Variant

/-- What a Variant holds, if it has not been destroyed. -/
def heldBy (o : Option Variant) : List ℕ := (o.bind holder).toList

/-- What the Variants of a connector hold. -/
def heldIn : Option VariantConnector → List ℕ
  | none => []
  | some c => (c.mReturnValue :: c.mParams).filterMap holder

/-- The smart pointers that the Variants hold, as often as they are held. -/
def held (s : Variants) : List ℕ := (s.vars.map heldBy).flatten ++ (s.connectors.map heldIn).flatten

/-- What getType says. -/
def kinds (s : Variants) : VariantKinds :=
  ⟨s.vars.map (Option.map mType),s.connectors.map (Option.map fun c => c.mParams.map mType)⟩

/-- The types are those of the values. No Variant refers to a smart pointer that has been deleted, and
those that have not been are still referred to, so that none is left behind. -/
structure Refines (s : Variants) (t : VariantKinds) : Prop where
  kinds : s.kinds = t
  holders : ∀ a, (s.holders.cells a).isSome ↔ a ∈ s.held

/-- A Variant that is destroyed is the only one that holds its smart pointer, and one that is written
to is not, if it does not hold the same one afterwards. No float, double or string is set, and no object
is pushed. -/
def Owned (s : Variants) : VariantOp → Prop
  | .create | .construct _ | .copy _ | .connector | .reset _ | .disconnect _ => True
  | .assign v w => ∀ x y a, s.var v = .ok x → s.var w = .ok y → x.holder = some a →
      y.holder = some a ∨ 1 < s.held.count a
  | .set v val => (val.kind ≠ .TYPE_FLOAT ∧ val.kind ≠ .TYPE_DOUBLE ∧ val.kind ≠ .TYPE_STRING) ∧
      ∀ x a, s.var v = .ok x → x.holder = some a → 1 < s.held.count a
  | .destroy v => ∀ x a, s.var v = .ok x → x.holder = some a → s.held.count a = 1
  | .push _ val _ => val.kind ≠ .TYPE_OBJECT

/-- No connector holds a smart pointer. -/
def Bare (s : Variants) : Prop := ∀ o ∈ s.connectors, heldIn o = []

variable {s s' : Variants} {t : VariantKinds} {x y : Variant} {v w c a : ℕ} {h : HolderHeap}

theorem var_eq_ok : s.var v = .ok x ↔ s.vars[v]? = some (some x) := by
  rw [var]
  split <;> simp_all

theorem conn_eq_ok {k : VariantConnector} : s.conn c = .ok k ↔ s.connectors[c]? = some (some k) := by
  rw [conn]
  split <;> simp_all

theorem count_heldBy (x : Variant) (a : ℕ) :
    (heldBy (some x)).count a = if x.holder = some a then 1 else 0 := by
  rw [heldBy, Option.bind_some]
  cases x.holder with
  | none => rfl
  | some b => simp [List.count_singleton]

theorem mem_held (hx : s.vars[v]? = some (some x)) (hxa : x.holder = some a) : a ∈ s.held := by
  apply List.mem_append_left
  refine List.mem_flatten.mpr ⟨heldBy (some x),List.mem_map_of_mem (List.mem_of_getElem? hx),?_⟩
  rw [heldBy, Option.bind_some, hxa]
  exact List.mem_singleton_self a

/-- Another Variant is put in the place of one. -/
theorem count_set (hx : s.vars[v]? = some (some x)) (o : Option Variant) (h : HolderHeap) (a : ℕ) :
    (held { s with vars := s.vars.set v o, holders := h }).count a+(if x.holder = some a then 1 else 0) =
      s.held.count a+(heldBy o).count a := by
  have hold : (s.vars.map heldBy)[v]? = some (heldBy (some x)) := by
    rw [List.getElem?_map, hx, Option.map_some]
  have hset := count_flatten_set (b := heldBy o) hold a
  rw [← List.map_set, count_heldBy] at hset
  simp only [held, List.count_append]
  omega

theorem held_append (x : Variant) (h : HolderHeap) :
    (held { s with vars := s.vars ++ [some x], holders := h }).Perm (x.holder.toList ++ s.held) := by
  have happend : (s.vars ++ [some x]).map heldBy = s.vars.map heldBy ++ [heldBy (some x)] := by simp
  rw [held, happend, List.flatten_append, List.flatten_singleton, held, heldBy, Option.bind_some,
    List.append_assoc]
  calc ((s.vars.map heldBy).flatten ++ (x.holder.toList ++ (s.connectors.map heldIn).flatten)).Perm
        ((s.vars.map heldBy).flatten ++ x.holder.toList ++ (s.connectors.map heldIn).flatten) := by
        rw [List.append_assoc]
    _ |>.Perm (x.holder.toList ++ (s.vars.map heldBy).flatten ++ (s.connectors.map heldIn).flatten) :=
        List.perm_append_comm.append_right _
    _ |>.Perm (x.holder.toList ++ ((s.vars.map heldBy).flatten ++ (s.connectors.map heldIn).flatten)) := by
        rw [List.append_assoc]

/-- What a new value is held by, and what it does to the heap. -/
theorem construct_spec (h : HolderHeap) (val : VariantValue) :
    (construct h val).1.mType = val.kind ∧
      ∀ a, ((construct h val).2.cells a).isSome ↔
        (construct h val).1.holder = some a ∨ (h.cells a).isSome := by
  cases val with
  | object iid obj =>
    refine ⟨rfl,?_⟩
    intro a
    by_cases ha : a = h.made
    · subst ha
      simp [construct, holder]
    · simp [construct, holder, ha, Ne.symm ha]
  | _ => exact ⟨rfl,fun a => by simp [construct, holder]⟩

theorem set_spec (x : Variant) (h : HolderHeap) (val : VariantValue) :
    ((x.set h val).1.mType = val.kind ↔
      val.kind ≠ .TYPE_FLOAT ∧ val.kind ≠ .TYPE_DOUBLE ∧ val.kind ≠ .TYPE_STRING) ∧
      (∀ a, ((x.set h val).2.cells a).isSome ↔
        (x.set h val).1.holder = some a ∨ (h.cells a).isSome) ∧
      ∀ a, (x.set h val).1.holder = some a → h.cells a = none := by
  cases val with
  | object iid obj =>
    refine ⟨by simp [Variant.set, VariantValue.kind],?_,?_⟩
    · intro a
      by_cases ha : a = h.made
      · subst ha
        simp [Variant.set, holder]
      · simp [Variant.set, holder, ha, Ne.symm ha]
    · rintro a ⟨⟩
      exact h.fresh _ (le_refl _)
  | _ =>
    refine ⟨by simp [Variant.set, VariantValue.kind],fun a => by simp [Variant.set, holder],?_⟩
    intro a ha
    simp [Variant.set, holder] at ha

/-- Another value takes the place of one. What it holds has to be there, and what it replaces must not
have been the last to hold anything. -/
theorem replaced_holders (hs : ∀ a, (s.holders.cells a).isSome ↔ a ∈ s.held)
    (hx : s.vars[v]? = some (some x))
    (hcells : ∀ a, (h.cells a).isSome ↔ y.holder = some a ∨ (s.holders.cells a).isSome) :
    (∀ a, (h.cells a).isSome ↔ a ∈ held { s with vars := s.vars.set v (some y), holders := h }) ↔
      ∀ a, x.holder = some a → y.holder = some a ∨ 1 < s.held.count a := by
  -- all is about how often each smart pointer is held, before and afterwards
  have hcount (a : ℕ) := count_set hx (some y) h a
  simp only [count_heldBy] at hcount
  have hpos (a : ℕ) (hxa : x.holder = some a) : 0 < s.held.count a :=
    List.count_pos_iff.mpr (mem_held hx hxa)
  constructor
  · intro h' a hxa
    by_contra hnot
    rw [not_or] at hnot
    have hone := hcount a
    rw [if_pos hxa, if_neg hnot.1] at hone
    -- it has not been deleted, so somebody still has to hold it
    have hlive := (h' a).mp ((hcells a).mpr (.inr ((hs a).mpr (mem_held hx hxa))))
    have hpos' := List.count_pos_iff.mpr hlive
    omega
  · intro hkeep a
    rw [hcells a, hs a, ← List.count_pos_iff, ← List.count_pos_iff]
    have hone := hcount a
    -- held by the old value, by the new one, by both or by neither
    by_cases hxa : x.holder = some a <;> by_cases hya : y.holder = some a
    · have := hpos a hxa
      simp only [hxa, hya, if_true, true_or, true_iff] at hone ⊢
      omega
    · have := (hkeep a hxa).resolve_left hya
      simp only [hxa, hya, if_true, if_false, false_or] at hone ⊢
      omega
    · simp only [hxa, hya, if_true, if_false, true_or, true_iff] at hone ⊢
      omega
    · simp only [hxa, hya, if_false, false_or] at hone ⊢
      omega

theorem destroy_spec (hlive : ∀ a, x.holder = some a → (h.cells a).isSome) :
    ∃ h', x.destroy h = .ok h' ∧ ∀ a, (h'.cells a).isSome ↔ x.holder ≠ some a ∧ (h.cells a).isSome := by
  rw [Variant.destroy]
  cases hx : x.holder with
  | none => exact ⟨h,rfl,fun a => by simp⟩
  | some b =>
    obtain ⟨obj,hb⟩ := Option.isSome_iff_exists.mp (hlive b hx)
    refine ⟨h.clear b,CellHeap.free_ok hb,?_⟩
    intro a
    by_cases hab : a = b
    · subst hab
      simp [CellHeap.clear_cells]
    · rw [CellHeap.clear_cells_of_ne hab]
      simp [Ne.symm hab]

/-- A Variant that is destroyed takes with it what it holds. -/
theorem destroyed_holders (hs : ∀ a, (s.holders.cells a).isSome ↔ a ∈ s.held)
    (hx : s.vars[v]? = some (some x))
    (hcells : ∀ a, (h.cells a).isSome ↔ x.holder ≠ some a ∧ (s.holders.cells a).isSome) :
    (∀ a, (h.cells a).isSome ↔ a ∈ held { s with vars := s.vars.set v none, holders := h }) ↔
      ∀ a, x.holder = some a → s.held.count a = 1 := by
  have hcount (a : ℕ) := count_set hx none h a
  have hnone (a : ℕ) : (heldBy none).count a = 0 := rfl
  simp only [hnone, Nat.add_zero] at hcount
  constructor
  · intro h' a hxa
    have hone := hcount a
    rw [if_pos hxa] at hone
    -- it has been deleted, so nobody may hold it any more
    have hdead : a ∉ held { s with vars := s.vars.set v none, holders := h } := by
      rw [← h' a, hcells a]
      exact fun hlive => hlive.1 hxa
    have hzero := List.count_eq_zero.mpr hdead
    omega
  · intro hsole a
    rw [hcells a, hs a, ← List.count_pos_iff, ← List.count_pos_iff]
    have hone := hcount a
    by_cases hxa : x.holder = some a
    · have := hsole a hxa
      simp only [hxa, if_true, ne_eq, not_true, false_and, false_iff] at hone ⊢
      omega
    · simp only [hxa, if_false, ne_eq, not_false_eq_true, true_and] at hone ⊢
      omega

theorem destroyAll_bare {xs : List Variant} (hxs : ∀ x ∈ xs, x.holder = none) (h : HolderHeap) :
    destroyAll xs h = .ok h := by
  induction xs with
  | nil => rfl
  | cons x xs ih =>
    rw [destroyAll, Variant.destroy, hxs x List.mem_cons_self, ok_bind]
    exact ih fun y hy => hxs y (List.mem_cons_of_mem x hy)

theorem heldIn_eq_nil {k : VariantConnector} :
    heldIn (some k) = [] ↔ k.mReturnValue.holder = none ∧ ∀ x ∈ k.mParams, x.holder = none := by
  rw [heldIn, List.filterMap_eq_nil_iff, List.forall_mem_cons]

/-- A pushed value is in the vector, and what its temporary holds has been deleted. -/
theorem push_spec {k : VariantConnector} (hk : heldIn (some k) = []) (h : HolderHeap) (val : VariantValue)
    (moves : Bool) :
    ∃ h', k.push h val moves = .ok ({ k with mParams := k.mParams ++ [(construct h val).1] },h') ∧
      ∀ a, (h'.cells a).isSome ↔ (construct h val).1.holder ≠ some a ∧ (h.cells a).isSome := by
  obtain ⟨-,hcells⟩ := construct_spec h val
  obtain ⟨h',hdestroy,hcells'⟩ := destroy_spec (x := (construct h val).1) (h := (construct h val).2)
    fun a ha => (hcells a).mpr (.inl ha)
  refine ⟨h',?_,?_⟩
  · rw [VariantConnector.push]
    simp only [destroyAll_bare (heldIn_eq_nil.mp hk).2, ite_self, ok_bind, hdestroy]
  · intro a
    rw [hcells' a, hcells a]
    tauto

/-- The connectors do not count. -/
theorem held_of_bare (hs : s.Bare) : s.held = (s.vars.map heldBy).flatten := by
  have hnil : (s.connectors.map heldIn).flatten = [] := by
    rw [List.flatten_eq_nil_iff]
    intro l hl
    obtain ⟨o,ho,rfl⟩ := List.mem_map.mp hl
    exact hs o ho
  rw [held, hnil, List.append_nil]

theorem held_connectors (hs : s.Bare) {cs : List (Option VariantConnector)} (hcs : ∀ o ∈ cs, heldIn o = [])
    (h : HolderHeap) : held { s with connectors := cs, holders := h } = s.held := by
  have hs' : Bare { s with connectors := cs, holders := h } := hcs
  rw [held_of_bare hs, held_of_bare hs']

theorem Bare.set (hs : s.Bare) {o : Option VariantConnector} (ho : heldIn o = []) :
    ∀ o' ∈ s.connectors.set c o, heldIn o' = [] := by
  intro o' ho'
  rcases List.mem_or_eq_of_mem_set ho' with hold | rfl
  · exact hs o' hold
  · exact ho

theorem holder_eq_none (hx : x.mType ≠ .TYPE_OBJECT) : x.holder = none := by
  rw [holder]
  split
  · exact absurd ‹_› hx
  · rfl

theorem exists_holder (hx : x.mType = .TYPE_OBJECT) : ∃ a, x.holder = some a := by
  obtain ⟨a,ha⟩ := x.wf hx
  exact ⟨a,by rw [holder, hx, ha]⟩

theorem Refines.iff_holders (hk : s.kinds = t) :
    s.Refines t ↔ ∀ a, (s.holders.cells a).isSome ↔ a ∈ s.held :=
  ⟨fun hr => hr.holders,fun h => ⟨hk,h⟩⟩

/-- A new Variant. -/
theorem appended_holders (hs : ∀ a, (s.holders.cells a).isSome ↔ a ∈ s.held)
    (hcells : ∀ a, (h.cells a).isSome ↔ x.holder = some a ∨ (s.holders.cells a).isSome) :
    ∀ a, (h.cells a).isSome ↔ a ∈ held { s with vars := s.vars ++ [some x], holders := h } := by
  intro a
  rw [(held_append x h).mem_iff, hcells a, hs a, List.mem_append, Option.mem_toList]

/-- A call returns, and all smart pointers are held and all types right afterwards just when it is an
owned one. -/
def Obeys (s : Variants) (op : VariantOp) : Prop :=
  ∃ s', s.step op = .ok ((),s') ∧ (s'.Refines (op.stores s.kinds) ↔ s.Owned op) ∧
    (s.Owned op → s'.Bare)

section Steps
variable (hs : ∀ a, (s.holders.cells a).isSome ↔ a ∈ s.held) (hbare : s.Bare)
include hs hbare

theorem create_obeys : s.Obeys .create := by
  have hk : kinds { s with vars := s.vars ++ [some Variant.create] } = VariantOp.create.stores s.kinds := by
    simp [kinds, VariantOp.stores, Variant.create]
  refine ⟨{ s with vars := s.vars ++ [some Variant.create] },rfl,?_,fun _ => hbare⟩
  rw [Refines.iff_holders hk]
  exact iff_of_true (appended_holders hs fun a => by simp [holder, Variant.create]) trivial

theorem construct_obeys (val : VariantValue) : s.Obeys (.construct val) := by
  obtain ⟨htype,hcells⟩ := construct_spec s.holders val
  have hk : kinds ⟨s.vars ++ [some (Variant.construct s.holders val).1],s.connectors,
      (Variant.construct s.holders val).2⟩ = (VariantOp.construct val).stores s.kinds := by
    simp [kinds, VariantOp.stores, htype]
  refine ⟨⟨s.vars ++ [some (Variant.construct s.holders val).1],s.connectors,
    (Variant.construct s.holders val).2⟩,rfl,?_,fun _ => hbare⟩
  rw [Refines.iff_holders hk]
  exact iff_of_true (appended_holders hs hcells) trivial

theorem copy_obeys (hw : s.var w = .ok x) : s.Obeys (.copy w) := by
  have hx := var_eq_ok.mp hw
  have hk : kinds { s with vars := s.vars ++ [some x] } = (VariantOp.copy w).stores s.kinds := by
    simp [kinds, VariantOp.stores, hx]
  refine ⟨{ s with vars := s.vars ++ [some x] },by rw [Variants.step, hw, ok_bind],?_,fun _ => hbare⟩
  rw [Refines.iff_holders hk]
  refine iff_of_true (appended_holders hs ?_) trivial
  exact fun a => ⟨.inr,fun h => h.elim (fun hxa => (hs a).mpr (mem_held hx hxa)) id⟩

theorem assign_obeys (hv : s.var v = .ok x) (hw : s.var w = .ok y) : s.Obeys (.assign v w) := by
  have hx := var_eq_ok.mp hv
  have hy := var_eq_ok.mp hw
  have hk : kinds { s with vars := s.vars.set v (some y) } = (VariantOp.assign v w).stores s.kinds := by
    simp [kinds, VariantOp.stores, hy, List.map_set]
  have hcells (a : ℕ) : (s.holders.cells a).isSome ↔ y.holder = some a ∨ (s.holders.cells a).isSome :=
    ⟨.inr,fun h => h.elim (fun hya => (hs a).mpr (mem_held hy hya)) id⟩
  refine ⟨{ s with vars := s.vars.set v (some y) },by rw [Variants.step, hv, ok_bind, hw, ok_bind],?_,
    fun _ => hbare⟩
  rw [Refines.iff_holders hk, replaced_holders hs hx hcells]
  constructor
  · intro hkeep x' y' a hv' hw'
    obtain rfl := Except.ok.inj (hv.symm.trans hv')
    obtain rfl := Except.ok.inj (hw.symm.trans hw')
    exact hkeep a
  · exact fun howned a => howned x y a hv hw

omit hs hbare in
theorem set_kinds (hx : s.vars[v]? = some (some x)) (val : VariantValue) :
    kinds ⟨s.vars.set v (some y),s.connectors,h⟩ = (VariantOp.set v val).stores s.kinds ↔
      y.mType = val.kind := by
  have hlt : v < (s.vars.map (Option.map mType)).length := by
    rw [List.length_map]
    exact (List.getElem?_eq_some_iff.mp hx).1
  constructor
  · intro h
    have hvars := congrArg (fun t => t.vars[v]?) h
    simpa [kinds, VariantOp.stores, List.map_set, List.getElem?_set_self hlt] using hvars
  · intro h
    simp [kinds, VariantOp.stores, List.map_set, h]

theorem set_obeys (hv : s.var v = .ok x) (val : VariantValue) : s.Obeys (.set v val) := by
  have hx := var_eq_ok.mp hv
  obtain ⟨htype,hcells,hnew⟩ := set_spec x s.holders val
  have hlast (a : ℕ) (hxa : x.holder = some a) : (x.set s.holders val).1.holder ≠ some a := by
    intro hya
    have hlive := (hs a).mpr (mem_held hx hxa)
    rw [hnew a hya] at hlive
    cases hlive
  have hiff := replaced_holders hs hx hcells
  refine ⟨⟨s.vars.set v (some (x.set s.holders val).1),s.connectors,(x.set s.holders val).2⟩,
    by rw [Variants.step, hv, ok_bind],?_,fun _ => hbare⟩
  constructor
  · intro hr
    refine ⟨htype.mp ((set_kinds hx val).mp hr.kinds),?_⟩
    intro x' a hv' hxa
    obtain rfl := Except.ok.inj (hv.symm.trans hv')
    exact (hiff.mp hr.holders a hxa).resolve_left (hlast a hxa)
  · rintro ⟨hkind,howned⟩
    exact ⟨(set_kinds hx val).mpr (htype.mpr hkind),hiff.mpr fun a hxa => .inr (howned x a hv hxa)⟩

theorem destroy_obeys (hv : s.var v = .ok x) : s.Obeys (.destroy v) := by
  have hx := var_eq_ok.mp hv
  obtain ⟨h',hdestroy,hcells⟩ := destroy_spec fun a hxa => (hs a).mpr (mem_held hx hxa)
  have hk : kinds ⟨s.vars.set v none,s.connectors,h'⟩ = (VariantOp.destroy v).stores s.kinds := by
    simp [kinds, VariantOp.stores, List.map_set]
  refine ⟨⟨s.vars.set v none,s.connectors,h'⟩,by rw [Variants.step, hv, ok_bind, hdestroy, ok_bind],?_,
    fun _ => hbare⟩
  rw [Refines.iff_holders hk, destroyed_holders hs hx hcells]
  constructor
  · intro hsole x' a hv'
    obtain rfl := Except.ok.inj (hv.symm.trans hv')
    exact hsole a
  · exact fun howned a => howned x a hv

/-- A call on a connector that has nothing to do with smart pointers. -/
theorem connectors_obey {op : VariantOp} {cs : List (Option VariantConnector)}
    (hcs : ∀ o ∈ cs, heldIn o = []) (hcells : ∀ a, (h.cells a).isSome ↔ (s.holders.cells a).isSome)
    (hstep : s.step op = .ok ((),⟨s.vars,cs,h⟩)) (hk : kinds ⟨s.vars,cs,h⟩ = op.stores s.kinds)
    (howned : s.Owned op) : s.Obeys op := by
  refine ⟨⟨s.vars,cs,h⟩,hstep,?_,fun _ => hcs⟩
  rw [Refines.iff_holders hk]
  refine iff_of_true ?_ howned
  intro a
  rw [held_connectors hbare hcs h, ← hs a]
  exact hcells a

theorem connector_obeys : s.Obeys .connector := by
  have hnew : ∀ o ∈ s.connectors ++ [some VariantConnector.create], heldIn o = [] := by
    intro o ho
    rcases List.mem_append.mp ho with hold | hnew
    · exact hbare o hold
    · rw [List.mem_singleton.mp hnew]
      rfl
  have hk : kinds { s with connectors := s.connectors ++ [some .create] } =
      VariantOp.connector.stores s.kinds := by
    simp [kinds, VariantOp.stores, VariantConnector.create]
  exact connectors_obey hs hbare hnew (fun _ => Iff.rfl) rfl hk trivial

theorem push_obeys {k : VariantConnector} (hc : s.conn c = .ok k) (val : VariantValue) (moves : Bool) :
    s.Obeys (.push c val moves) := by
  have hk := conn_eq_ok.mp hc
  have hkbare : heldIn (some k) = [] := hbare _ (List.mem_of_getElem? hk)
  obtain ⟨h',hpush,hcells⟩ := push_spec hkbare s.holders val moves
  obtain ⟨htype,-⟩ := construct_spec s.holders val
  let k' : VariantConnector := { k with mParams := k.mParams ++ [(Variant.construct s.holders val).1] }
  have hstep : s.step (.push c val moves) = .ok ((),⟨s.vars,s.connectors.set c (some k'),h'⟩) := by
    rw [Variants.step, hc, ok_bind, hpush, ok_bind]
  have hkinds : kinds ⟨s.vars,s.connectors.set c (some k'),h'⟩ =
      (VariantOp.push c val moves).stores s.kinds := by
    simp [kinds, VariantOp.stores, hk, List.map_set, k', htype]
  by_cases hval : val.kind = .TYPE_OBJECT
  · -- the element refers to what the temporary has deleted
    obtain ⟨a,ha⟩ := exists_holder (htype.trans hval)
    have hmem : a ∈ held ⟨s.vars,s.connectors.set c (some k'),h'⟩ := by
      apply List.mem_append_right
      refine List.mem_flatten.mpr ⟨heldIn (some k'),List.mem_map_of_mem ?_,?_⟩
      · exact List.mem_set (List.getElem?_eq_some_iff.mp hk).1 _
      · exact List.mem_filterMap.mpr ⟨_,List.mem_cons_of_mem _ (by simp [k']),ha⟩
    refine ⟨_,hstep,iff_of_false ?_ ?_,?_⟩
    · intro hr
      exact ((hcells a).mp ((hr.holders a).mpr hmem)).1 ha
    · exact fun howned => howned hval
    · exact fun howned => absurd hval howned
  · have hnone : (Variant.construct s.holders val).1.holder = none := holder_eq_none (htype ▸ hval)
    have hk' : heldIn (some k') = [] := by
      refine heldIn_eq_nil.mpr ⟨(heldIn_eq_nil.mp hkbare).1,?_⟩
      intro x hx
      rcases List.mem_append.mp hx with hold | hnew
      · exact (heldIn_eq_nil.mp hkbare).2 x hold
      · rw [List.mem_singleton.mp hnew, hnone]
    apply connectors_obey hs hbare (hbare.set hk') _ hstep hkinds hval
    intro a
    rw [hcells a, hnone]
    simp

theorem reset_obeys {k : VariantConnector} (hc : s.conn c = .ok k) : s.Obeys (.reset c) := by
  have hk := conn_eq_ok.mp hc
  obtain ⟨hret,hparams⟩ := heldIn_eq_nil.mp (hbare _ (List.mem_of_getElem? hk))
  let k' : VariantConnector := { k with mParams := [] }
  have hk' : heldIn (some k') = [] := heldIn_eq_nil.mpr ⟨hret,fun _ hx => by cases hx⟩
  have hstep : s.step (.reset c) = .ok ((),⟨s.vars,s.connectors.set c (some k'),s.holders⟩) := by
    rw [Variants.step, hc, ok_bind, VariantConnector.reset, destroyAll_bare hparams, ok_bind, ok_bind]
  have hkinds : kinds ⟨s.vars,s.connectors.set c (some k'),s.holders⟩ =
      (VariantOp.reset c).stores s.kinds := by
    simp [kinds, VariantOp.stores, List.map_set, k']
  exact connectors_obey hs hbare (hbare.set hk') (fun _ => Iff.rfl) hstep hkinds trivial

theorem disconnect_obeys {k : VariantConnector} (hc : s.conn c = .ok k) : s.Obeys (.disconnect c) := by
  have hk := conn_eq_ok.mp hc
  obtain ⟨hret,hparams⟩ := heldIn_eq_nil.mp (hbare _ (List.mem_of_getElem? hk))
  have hstep : s.step (.disconnect c) = .ok ((),⟨s.vars,s.connectors.set c none,s.holders⟩) := by
    rw [Variants.step, hc, ok_bind, VariantConnector.destroy, Variant.destroy, hret, ok_bind,
      destroyAll_bare hparams, ok_bind]
  have hkinds : kinds ⟨s.vars,s.connectors.set c none,s.holders⟩ =
      (VariantOp.disconnect c).stores s.kinds := by
    simp [kinds, VariantOp.stores, List.map_set]
  exact connectors_obey hs hbare (hbare.set rfl) (fun _ => Iff.rfl) hstep hkinds trivial

theorem obeys {op : VariantOp} (ha : s.Admits op) : s.Obeys op := by
  cases op with
  | create => exact create_obeys hs hbare
  | construct val => exact construct_obeys hs hbare val
  | copy w =>
    obtain ⟨x,hw⟩ := ha
    exact copy_obeys hs hbare hw
  | assign v w =>
    obtain ⟨⟨x,hv⟩,y,hw⟩ := ha
    exact assign_obeys hs hbare hv hw
  | set v val =>
    obtain ⟨x,hv⟩ := ha
    exact set_obeys hs hbare hv val
  | destroy v =>
    obtain ⟨x,hv⟩ := ha
    exact destroy_obeys hs hbare hv
  | connector => exact connector_obeys hs hbare
  | push c val moves =>
    obtain ⟨k,hc⟩ := ha
    exact push_obeys hs hbare hc val moves
  | reset c =>
    obtain ⟨k,hc⟩ := ha
    exact reset_obeys hs hbare hc
  | disconnect c =>
    obtain ⟨k,hc⟩ := ha
    exact disconnect_obeys hs hbare hc

end Steps

/-- What all owned calls keep. -/
structure Inv (s : Variants) (t : VariantKinds) : Prop where
  refines : s.Refines t
  bare : s.Bare

theorem start_inv : start.Inv ⟨[],[]⟩ := by
  refine ⟨⟨rfl,?_⟩,fun o ho => by cases ho⟩
  intro a
  simp [start, CellHeap.empty, held]

theorem Inv.obeys (hi : s.Inv t) {op : VariantOp} (ha : s.Admits op) : s.Obeys op :=
  Variants.obeys hi.refines.holders hi.bare ha

/-- Every smart pointer is deleted once, when the last Variant lets go of it, and getType names what was
stored last, in the runs whose calls are all owned ones, and in no others. -/
theorem variants_refine_iff_owned (ops : List VariantOp) (ha : Guarded step Admits start ops) :
    Simulated step VariantOp.Means Refines start ⟨[],[]⟩ ops ↔ Guarded step Owned start ops := by
  apply simulated_iff_of_admitted Admits Owned (fun _ _ h => h.refines) _ _ start_inv ops ha
  · intro s t op hi hadmits howned
    obtain ⟨s',hstep,hiff,hbare⟩ := hi.obeys hadmits
    refine ⟨(),s',op.stores t,hstep,rfl,?_,hbare howned⟩
    rw [← hi.refines.kinds]
    exact hiff.mpr howned
  · intro s t op o s' t' hi hadmits hstep ht hr'
    obtain ⟨s₁,hstep₁,hiff,hbare⟩ := hi.obeys hadmits
    obtain ⟨-,rfl⟩ := Prod.mk.inj (Except.ok.inj (hstep₁.symm.trans hstep))
    obtain rfl : t' = op.stores s.kinds := hi.refines.kinds ▸ ht
    have howned := hiff.mp hr'
    exact ⟨howned,hr',hbare howned⟩

/-- A string and an object, and the object once more for a while. -/
theorem variants_refine_iff_owned_two :
    Simulated step VariantOp.Means Refines start ⟨[],[]⟩
        [.construct (.object "IFoo" (some 7)),.copy 0,.set 1 (.char 65),.destroy 0,.connector,
          .push 0 (.int32 5) true,.reset 0] ↔
      Guarded step Owned start
        [.construct (.object "IFoo" (some 7)),.copy 0,.set 1 (.char 65),.destroy 0,.connector,
          .push 0 (.int32 5) true,.reset 0] := by
  apply variants_refine_iff_owned
  exact .cons rfl trivial (.cons rfl ⟨_,rfl⟩ (.cons rfl ⟨_,rfl⟩ (.cons rfl ⟨_,rfl⟩ (.cons rfl trivial
    (.cons rfl ⟨_,rfl⟩ (.cons rfl ⟨_,rfl⟩ trivial))))))

/-- The element of the vector refers to a smart pointer that went with the temporary; and a Variant that
a string is stored in says that it is a char. -/
theorem pushObject_not_held :
    (Guarded step Admits start [.connector,.push 0 (.object "IFoo" (some 7)) false] ∧
      ¬Simulated step VariantOp.Means Refines start ⟨[],[]⟩
        [.connector,.push 0 (.object "IFoo" (some 7)) false]) ∧
    (Guarded step Admits start [.create,.set 0 (.string "abc")] ∧
      ¬Simulated step VariantOp.Means Refines start ⟨[],[]⟩ [.create,.set 0 (.string "abc")]) := by
  refine ⟨⟨?_,?_⟩,?_,?_⟩
  · exact .cons rfl trivial (.cons rfl ⟨_,rfl⟩ trivial)
  · rintro ⟨-,_,_,_,hconnector,-,-,_,_,_,hpush,-,hr⟩
    obtain ⟨-,rfl⟩ := Prod.mk.inj (Except.ok.inj hconnector)
    obtain ⟨-,rfl⟩ := Prod.mk.inj (Except.ok.inj hpush)
    have hlive := (hr.holders 0).mpr List.mem_cons_self
    cases hlive
  · exact .cons rfl trivial (.cons rfl ⟨_,rfl⟩ trivial)
  · rintro ⟨-,_,_,t₁,hcreate,ht₁,-,_,_,t₂,hset,ht₂,hr⟩
    obtain ⟨-,rfl⟩ := Prod.mk.inj (Except.ok.inj hcreate)
    obtain ⟨-,rfl⟩ := Prod.mk.inj (Except.ok.inj hset)
    subst ht₁ ht₂
    have hvars := congrArg VariantKinds.vars hr.kinds
    exact absurd hvars (by decide)

end Variants

end JhCommon
