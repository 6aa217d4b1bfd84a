import Mathlib.Tactic

/-! Calls on one object from many threads, and the order in which the object meets them. A history
says when the calls begin and when they return. It is linearized by the effects that the object sees
one after the other: a call that returned has one of them, which explains its result, and a call that
began after another one had returned has its effect behind the other's. Some effects belong to no
call of the history. -/
namespace JhCommon

inductive CallEvent (ι μ ρ : Type*)
  | invoke (i : ι) (call : μ)
  | respond (i : ι) (result : ρ)

structure Effect (ι μ ρ : Type*) where
  id : Option ι
  call : μ
  result : ρ

namespace CallEvent
variable {ι μ ρ : Type*}

def invoked : CallEvent ι μ ρ → Option ι
  | .invoke i _ => some i
  | .respond _ _ => none

def responded : CallEvent ι μ ρ → Option ι
  | .invoke _ _ => none
  | .respond i _ => some i

end CallEvent

/-- The object goes from o to o', with the results that the effects have. -/
def Legal {ι μ ρ σ : Type*} (method : μ → σ → ρ × σ) : σ → List (Effect ι μ ρ) → σ → Prop
  | o, [], o' => o' = o
  | o, e :: es, o' => (method e.call o).1 = e.result ∧ Legal method (method e.call o).2 es o'

section Precedes
variable {α : Type*} {x y z : α} {l : List α}

/-- An occurrence of x in the list has one of y behind it. -/
def Precedes (l : List α) (x y : α) : Prop := [x,y].Sublist l

theorem Precedes.concat (h : Precedes l x y) (z : α) : Precedes (l ++ [z]) x y :=
  h.trans (List.sublist_append_left l [z])

theorem precedes_last (h : x ∈ l) (z : α) : Precedes (l ++ [z]) x z :=
  (List.singleton_sublist.mpr h).append (List.Sublist.refl [z])

theorem Precedes.left_mem (h : Precedes l x y) : x ∈ l := h.subset List.mem_cons_self

/-- What precedes in a list with one more element did before, or that element is the later one. -/
theorem precedes_concat : Precedes (l ++ [z]) x y ↔ Precedes l x y ∨ x ∈ l ∧ y = z := by
  constructor
  · intro h
    have hrev := h.reverse
    rw [List.reverse_append, List.reverse_singleton, List.singleton_append] at hrev
    rcases List.sublist_cons_iff.mp hrev with hold | ⟨r,hr,hsub⟩
    · exact .inl (List.reverse_sublist.mp hold)
    · obtain ⟨rfl,rfl⟩ := List.cons.inj hr
      exact .inr ⟨List.mem_reverse.mp (List.singleton_sublist.mp hsub),rfl⟩
  · rintro (h | ⟨hx,rfl⟩)
    · exact h.concat z
    · exact precedes_last hx y

end Precedes

section Linearize
variable {ι μ ρ σ : Type*} {method : μ → σ → ρ × σ} {o o' : σ} {h : List (CallEvent ι μ ρ)}
  {es : List (Effect ι μ ρ)} {i : ι} {m : μ} {r : ρ}

theorem Legal.concat (hlegal : Legal method o es o') (i : Option ι) (m : μ) :
    Legal method o (es ++ [⟨i,m,(method m o').1⟩]) (method m o').2 := by
  induction es generalizing o with
  | nil =>
    obtain rfl := hlegal
    exact ⟨rfl,rfl⟩
  | cons e es ih => exact ⟨hlegal.1,ih hlegal.2⟩

/-- The effects linearize the history, in which nothing is invoked twice, and nothing is answered
twice or that was not invoked. -/
structure Linearizes (method : μ → σ → ρ × σ) (o : σ) (h : List (CallEvent ι μ ρ))
    (es : List (Effect ι μ ρ)) (o' : σ) : Prop where
  legal : Legal method o es o'
  invokedOnce : (h.filterMap CallEvent.invoked).Nodup
  respondedOnce : (h.filterMap CallEvent.responded).Nodup
  responses : ∀ i r, .respond i r ∈ h → ∃ m, Precedes h (.invoke i m) (.respond i r)
  effectOnce : (es.filterMap Effect.id).Nodup
  called : ∀ e ∈ es, ∀ i, e.id = some i → .invoke i e.call ∈ h
  explained : ∀ i r, .respond i r ∈ h → ∃ e ∈ es, e.id = some i ∧ e.result = r
  ordered : ∀ i r j m, Precedes h (.respond i r) (.invoke j m) → ∀ d ∈ es, ∀ e ∈ es,
    d.id = some i → e.id = some j → Precedes es d e

theorem mem_invoked : i ∈ h.filterMap CallEvent.invoked ↔ ∃ m, .invoke i m ∈ h := by
  simp only [List.mem_filterMap]
  constructor
  · rintro ⟨e,he,hi⟩
    cases e with
    | invoke j m =>
      obtain rfl := Option.some.inj hi
      exact ⟨m,he⟩
    | respond j r => cases hi
  · rintro ⟨m,hm⟩
    exact ⟨_,hm,rfl⟩

theorem mem_responded : i ∈ h.filterMap CallEvent.responded ↔ ∃ r, .respond i r ∈ h := by
  simp only [List.mem_filterMap]
  constructor
  · rintro ⟨e,he,hi⟩
    cases e with
    | invoke j m => cases hi
    | respond j r =>
      obtain rfl := Option.some.inj hi
      exact ⟨r,he⟩
  · rintro ⟨r,hr⟩
    exact ⟨_,hr,rfl⟩

theorem linearizes_nil (method : μ → σ → ρ × σ) (o : σ) :
    Linearizes method o ([] : List (CallEvent ι μ ρ)) [] o where
  legal := rfl
  invokedOnce := List.nodup_nil
  respondedOnce := List.nodup_nil
  responses i r hr := nomatch hr
  effectOnce := List.nodup_nil
  called e he := nomatch he
  explained i r hr := nomatch hr
  ordered i r j m hpair d hd := nomatch hd

/-- A call begins. It is a new one, so nothing is ordered before or behind it. -/
theorem Linearizes.invoke (hl : Linearizes method o h es o') (hnew : ∀ m, .invoke i m ∉ h) (m : μ) :
    Linearizes method o (h ++ [.invoke i m]) es o' where
  legal := hl.legal
  invokedOnce := by
    rw [List.filterMap_append, List.nodup_append]
    refine ⟨hl.invokedOnce,List.nodup_singleton i,?_⟩
    rintro j hj k hk rfl
    obtain rfl := List.mem_singleton.mp hk
    obtain ⟨m',hm'⟩ := mem_invoked.mp hj
    exact hnew m' hm'
  respondedOnce := by
    rw [List.filterMap_append, show [CallEvent.invoke i m].filterMap CallEvent.responded =
      ([] : List ι) from rfl, List.append_nil]
    exact hl.respondedOnce
  responses j r hr := by
    rcases List.mem_append.mp hr with hr | hr
    · obtain ⟨m',hm'⟩ := hl.responses j r hr
      exact ⟨m',hm'.concat _⟩
    · cases List.mem_singleton.mp hr
  effectOnce := hl.effectOnce
  called e he j hj := List.mem_append_left _ (hl.called e he j hj)
  explained j r hr := by
    rcases List.mem_append.mp hr with hr | hr
    · exact hl.explained j r hr
    · cases List.mem_singleton.mp hr
  ordered j r k m' hpair d hd e he hdj hek := by
    rcases precedes_concat.mp hpair with hpair | ⟨-,hlast⟩
    · exact hl.ordered j r k m' hpair d hd e he hdj hek
    · obtain ⟨rfl,-⟩ := CallEvent.invoke.inj hlast
      exact absurd (hl.called e he k hek) (hnew _)

/-- The object meets something that is no call of the history. -/
theorem Linearizes.pass (hl : Linearizes method o h es o') (m : μ) :
    Linearizes method o h (es ++ [⟨none,m,(method m o').1⟩]) (method m o').2 where
  legal := hl.legal.concat none m
  invokedOnce := hl.invokedOnce
  respondedOnce := hl.respondedOnce
  responses := hl.responses
  effectOnce := by
    rw [List.filterMap_append]
    exact (List.append_nil (es.filterMap Effect.id)).symm ▸ hl.effectOnce
  called e he j hj := by
    rcases List.mem_append.mp he with he | he
    · exact hl.called e he j hj
    · obtain rfl := List.mem_singleton.mp he
      cases hj
  explained j r hr := by
    obtain ⟨e,he,hid,hres⟩ := hl.explained j r hr
    exact ⟨e,List.mem_append_left _ he,hid,hres⟩
  ordered j r k m' hpair d hd e he hdj hek := by
    rcases List.mem_append.mp hd with hd | hd
    · rcases List.mem_append.mp he with he | he
      · exact (hl.ordered j r k m' hpair d hd e he hdj hek).concat _
      · obtain rfl := List.mem_singleton.mp he
        cases hek
    · obtain rfl := List.mem_singleton.mp hd
      cases hdj

/-- The object meets a call, for the first time. The call has not been answered, so whatever was
before it began has its effect already. -/
theorem Linearizes.meet (hl : Linearizes method o h es o') (hcalled : .invoke i m ∈ h)
    (hfirst : ∀ e ∈ es, e.id ≠ some i) :
    Linearizes method o h (es ++ [⟨some i,m,(method m o').1⟩]) (method m o').2 where
  legal := hl.legal.concat (some i) m
  invokedOnce := hl.invokedOnce
  respondedOnce := hl.respondedOnce
  responses := hl.responses
  effectOnce := by
    rw [List.filterMap_append, List.nodup_append]
    refine ⟨hl.effectOnce,List.nodup_singleton i,?_⟩
    rintro j hj k hk rfl
    obtain rfl := List.mem_singleton.mp hk
    obtain ⟨e,he,hid⟩ := List.mem_filterMap.mp hj
    exact hfirst e he hid
  called e he j hj := by
    rcases List.mem_append.mp he with he | he
    · exact hl.called e he j hj
    · obtain rfl := List.mem_singleton.mp he
      obtain rfl := Option.some.inj hj
      exact hcalled
  explained j r hr := by
    obtain ⟨e,he,hid,hres⟩ := hl.explained j r hr
    exact ⟨e,List.mem_append_left _ he,hid,hres⟩
  ordered j r k m' hpair d hd e he hdj hek := by
    rcases List.mem_append.mp hd with hd | hd
    · rcases List.mem_append.mp he with he | he
      · exact (hl.ordered j r k m' hpair d hd e he hdj hek).concat _
      · obtain rfl := List.mem_singleton.mp he
        exact precedes_last hd _
    · -- the earlier one was answered, so it has an effect already
      obtain rfl := List.mem_singleton.mp hd
      obtain rfl := Option.some.inj hdj
      obtain ⟨e',he',hid,-⟩ := hl.explained i r hpair.left_mem
      exact absurd hid (hfirst e' he')

/-- A call that has met the object is answered with what it met, once. -/
theorem Linearizes.respond (hl : Linearizes method o h es o') (hmet : ⟨some i,m,r⟩ ∈ es)
    (honce : ∀ r, .respond i r ∉ h) : Linearizes method o (h ++ [.respond i r]) es o' where
  legal := hl.legal
  invokedOnce := by
    rw [List.filterMap_append, show [CallEvent.respond i r].filterMap CallEvent.invoked =
      ([] : List ι) from rfl, List.append_nil]
    exact hl.invokedOnce
  respondedOnce := by
    rw [List.filterMap_append, List.nodup_append]
    refine ⟨hl.respondedOnce,List.nodup_singleton i,?_⟩
    rintro j hj k hk rfl
    obtain rfl := List.mem_singleton.mp hk
    obtain ⟨r',hr'⟩ := mem_responded.mp hj
    exact honce r' hr'
  responses j r' hr' := by
    rcases List.mem_append.mp hr' with hr' | hr'
    · obtain ⟨m',hm'⟩ := hl.responses j r' hr'
      exact ⟨m',hm'.concat _⟩
    · obtain ⟨rfl,rfl⟩ := CallEvent.respond.inj (List.mem_singleton.mp hr')
      exact ⟨m,precedes_last (hl.called _ hmet j rfl) _⟩
  effectOnce := hl.effectOnce
  called e he j hj := List.mem_append_left _ (hl.called e he j hj)
  explained j r' hr' := by
    rcases List.mem_append.mp hr' with hr' | hr'
    · exact hl.explained j r' hr'
    · obtain ⟨rfl,rfl⟩ := CallEvent.respond.inj (List.mem_singleton.mp hr')
      exact ⟨_,hmet,rfl,rfl⟩
  ordered j r' k m' hpair d hd e he hdj hek := by
    rcases precedes_concat.mp hpair with hpair | ⟨-,hlast⟩
    · exact hl.ordered j r' k m' hpair d hd e he hdj hek
    · cases hlast

end Linearize

end JhCommon
