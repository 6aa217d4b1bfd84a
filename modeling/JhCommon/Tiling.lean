import Mathlib.Tactic

/-! An interval of addresses cut into tiles, some of them free. -/
namespace JhCommon.Tiling

structure Tile where
  addr : ℕ
  size : ℕ
  free : Bool

/-- Each tile starts where the one before it ends, from lo up to hi. -/
def Tiles : ℕ → List Tile → ℕ → Prop
  | lo, [], hi => lo = hi
  | lo, t :: ts, hi => t.addr = lo ∧ 0 < t.size ∧ Tiles (lo+t.size) ts hi

section Tilings
variable {lo hi : ℕ} {ts us : List Tile} {t u : Tile}

@[simp] theorem tiles_nil : Tiles lo [] hi ↔ lo = hi := Iff.rfl

@[simp] theorem tiles_cons :
    Tiles lo (t :: ts) hi ↔ t.addr = lo ∧ 0 < t.size ∧ Tiles (lo+t.size) ts hi := Iff.rfl

theorem tiles_append : Tiles lo (ts ++ us) hi ↔ ∃ mid, Tiles lo ts mid ∧ Tiles mid us hi := by
  induction ts generalizing lo with
  | nil => simp
  | cons t ts ih => simp only [List.cons_append, tiles_cons, ih]; tauto

theorem Tiles.le (h : Tiles lo ts hi) : lo ≤ hi := by
  induction ts generalizing lo with
  | nil => exact le_of_eq h
  | cons t ts ih =>
    have := ih h.2.2
    omega

theorem Tiles.bounds (h : Tiles lo ts hi) (ht : t ∈ ts) :
    lo ≤ t.addr ∧ 0 < t.size ∧ t.addr+t.size ≤ hi := by
  induction ts generalizing lo with
  | nil => simp at ht
  | cons u ts ih =>
    obtain ⟨hu,hpos,hts⟩ := h
    rcases List.mem_cons.mp ht with rfl | ht
    · have := hts.le
      omega
    · have := ih hts ht
      omega

/-- A tile of the list lies behind every tile in front of it. -/
theorem Tiles.pairwise (h : Tiles lo ts hi) :
    ts.Pairwise (fun t u => t.addr+t.size ≤ u.addr) := by
  induction ts generalizing lo with
  | nil => exact .nil
  | cons t ts ih =>
    obtain ⟨ht,hpos,hts⟩ := h
    refine .cons (fun u hu => ?_) (ih hts)
    have := (hts.bounds hu).1
    omega

theorem Tiles.sum_size (h : Tiles lo ts hi) : lo+(ts.map Tile.size).sum = hi := by
  induction ts generalizing lo with
  | nil => exact h
  | cons t ts ih =>
    rw [List.map_cons, List.sum_cons, ← add_assoc]
    exact ih h.2.2

theorem Tiles.addr_lt (h : Tiles lo ts hi) : (ts.map Tile.addr).Pairwise (· < ·) := by
  rw [List.pairwise_map]
  refine List.Pairwise.imp_of_mem (fun {t u} ht _ htu => ?_) h.pairwise
  have := (h.bounds ht).2.1
  omega

/-- Around a tile: what lies in front of it and what lies behind it. -/
theorem Tiles.around (h : Tiles lo (ts ++ t :: us) hi) :
    (∀ u ∈ ts, u.addr+u.size ≤ t.addr) ∧ (∀ u ∈ us, t.addr+t.size ≤ u.addr) := by
  obtain ⟨mid,hts,ht,hpos,hus⟩ := tiles_append.mp h
  refine ⟨fun u hu => ?_,fun u hu => ?_⟩
  · have := (hts.bounds hu).2.2
    omega
  · have := (hus.bounds hu).1
    omega

/-- Of two tiles one ends before the other one begins. -/
theorem Tiles.apart {u : Tile} (h : Tiles lo ts hi) (ht : t ∈ ts) (hu : u ∈ ts) :
    u = t ∨ u.addr+u.size ≤ t.addr ∨ t.addr+t.size ≤ u.addr := by
  obtain ⟨ls,rs,rfl⟩ := List.append_of_mem ht
  rcases List.mem_append.mp hu with hu | hu
  · exact .inr (.inl (h.around.1 u hu))
  · rcases List.mem_cons.mp hu with rfl | hu
    · exact .inl rfl
    · exact .inr (.inr (h.around.2 u hu))

/-- A tile may change hands. -/
theorem Tiles.set_free (h : Tiles lo (ts ++ t :: us) hi) (free : Bool) :
    Tiles lo (ts ++ ⟨t.addr,t.size,free⟩ :: us) hi := by
  obtain ⟨mid,hts,ht⟩ := tiles_append.mp h
  exact tiles_append.mpr ⟨mid,hts,ht⟩

/-- A tile may be cut in two. -/
theorem Tiles.cut (h : Tiles lo (ts ++ t :: us) hi) {m n : ℕ} (hm : 0 < m) (hn : 0 < n)
    (hsize : m+n = t.size) (a b : Bool) :
    Tiles lo (ts ++ ⟨t.addr,m,a⟩ :: ⟨t.addr+m,n,b⟩ :: us) hi := by
  obtain ⟨mid,hts,ht,-,hus⟩ := tiles_append.mp h
  refine tiles_append.mpr ⟨mid,hts,ht,hm,by rw [← ht],hn,?_⟩
  rwa [add_assoc, hsize]

/-- Two tiles in a row may be joined. -/
theorem Tiles.join (h : Tiles lo (ts ++ t :: u :: us) hi) (a : Bool) :
    Tiles lo (ts ++ ⟨t.addr,t.size+u.size,a⟩ :: us) hi := by
  obtain ⟨mid,hts,ht,hpos,-,-,hus⟩ := tiles_append.mp h
  refine tiles_append.mpr ⟨mid,hts,ht,by dsimp only; omega,?_⟩
  rwa [← add_assoc]

theorem Tiles.addr_eq (h : Tiles lo (ts ++ t :: u :: us) hi) : u.addr = t.addr+t.size := by
  obtain ⟨mid,-,ht,-,hu,-,-⟩ := tiles_append.mp h
  rw [hu, ht]

end Tilings

/-- The addresses of the free tiles, in order. -/
def frees (ts : List Tile) : List ℕ := (ts.filter Tile.free).map Tile.addr

def lives (ts : List Tile) : List Tile := ts.filter (fun t => !t.free)

/-- The number of free bytes. -/
def freeBytes (ts : List Tile) : ℕ := ((ts.filter Tile.free).map Tile.size).sum

section Ownership
variable {lo hi : ℕ} {ts us : List Tile} {t u : Tile} {a : ℕ} {l r : List ℕ}

@[simp] theorem frees_append : frees (ts ++ us) = frees ts ++ frees us := by simp [frees]

@[simp] theorem frees_cons : frees (t :: ts) = if t.free then t.addr :: frees ts else frees ts := by
  cases h : t.free <;> simp [frees, h]

@[simp] theorem frees_nil : frees [] = [] := rfl

@[simp] theorem lives_append : lives (ts ++ us) = lives ts ++ lives us := by simp [lives]

@[simp] theorem lives_cons : lives (t :: ts) = if t.free then lives ts else t :: lives ts := by
  cases h : t.free <;> simp [lives, h]

@[simp] theorem lives_nil : lives [] = [] := rfl

theorem mem_frees : a ∈ frees ts ↔ ∃ t ∈ ts, t.free ∧ t.addr = a := by
  simp [frees, and_assoc]

theorem mem_lives : t ∈ lives ts ↔ t ∈ ts ∧ t.free = false := by
  simp [lives]

theorem Tiles.frees_lt (h : Tiles lo ts hi) : (frees ts).Pairwise (· < ·) :=
  h.addr_lt.sublist (List.filter_sublist.map _)

theorem Tiles.frees_nodup (h : Tiles lo ts hi) : (frees ts).Nodup :=
  h.frees_lt.imp (fun hab => Nat.ne_of_lt hab)

theorem Tiles.freeBytes_le (h : Tiles lo ts hi) : lo+freeBytes ts ≤ hi := by
  have hsub := (List.filter_sublist (p := Tile.free) (l := ts)).map Tile.size
  have := hsub.sum_le_sum (fun _ _ => Nat.zero_le _)
  have := h.sum_size
  unfold freeBytes
  omega

/-- Where the list of free addresses splits, the tiling does. -/
theorem exists_of_frees_eq (h : frees ts = l ++ a :: r) :
    ∃ ls t rs, ts = ls ++ t :: rs ∧ t.free ∧ t.addr = a ∧ frees ls = l ∧ frees rs = r := by
  obtain ⟨l',r',hfilter,hl,hr⟩ := List.map_eq_append_iff.mp h
  obtain ⟨t,r'',rfl,rfl,rfl⟩ := List.map_eq_cons_iff.mp hr
  obtain ⟨ls,rs,rfl,rfl,hrs⟩ := List.filter_eq_append_iff.mp hfilter
  obtain ⟨ms,rs,rfl,hms,ht,rfl⟩ := List.filter_eq_cons_iff.mp hrs
  refine ⟨ls ++ ms,t,rs,by simp,ht,rfl,?_,rfl⟩
  have : frees ms = [] := by
    rw [frees, List.filter_eq_nil_iff.mpr hms, List.map_nil]
  rw [frees_append, this, List.append_nil, ← hl, frees]

end Ownership

/-- The address a is in a free tile. -/
def FreeAt (ts : List Tile) (a : ℕ) : Prop := ∃ t ∈ ts, t.free ∧ t.addr ≤ a ∧ a < t.addr+t.size

/-- The free addresses are those between the ends that no live tile takes. -/
theorem Tiles.freeAt_iff {lo hi a : ℕ} {ts : List Tile} (h : Tiles lo ts hi) :
    FreeAt ts a ↔ (lo ≤ a ∧ a < hi) ∧ ∀ t ∈ lives ts, a < t.addr ∨ t.addr+t.size ≤ a := by
  constructor
  · rintro ⟨t,ht,hfree,hlow,hhigh⟩
    have hbounds := h.bounds ht
    refine ⟨by omega,fun u hu => ?_⟩
    obtain ⟨hu,hlive⟩ := mem_lives.mp hu
    rcases h.apart ht hu with rfl | hbefore | hbehind
    · exact absurd hfree (by simp [hlive])
    · omega
    · omega
  · rintro ⟨⟨hlow,hhigh⟩,hlives⟩
    induction ts generalizing lo with
    | nil =>
      have hends : lo = hi := h
      omega
    | cons t ts ih =>
      obtain ⟨haddr,hpos,hts⟩ := h
      by_cases hin : a < t.addr+t.size
      · refine ⟨t,List.mem_cons_self,?_,by omega,hin⟩
        by_contra hlive
        have := hlives t (mem_lives.mpr ⟨List.mem_cons_self,by simpa using hlive⟩)
        omega
      · have hrest : ∀ u ∈ lives ts, a < u.addr ∨ u.addr+u.size ≤ a := by
          intro u hu
          apply hlives u
          rw [mem_lives] at hu ⊢
          exact ⟨List.mem_cons_of_mem t hu.1,hu.2⟩
        obtain ⟨u,hu,hfree⟩ := ih hts hrest (by omega)
        exact ⟨u,List.mem_cons_of_mem t hu,hfree⟩

/-- No free tile stands next to another. -/
def Coalesced (ts : List Tile) : Prop := ts.IsChain (fun t u => t.free → u.free = false)

/-- Put a tile in front, joined with a free one there. -/
def push (t : Tile) : List Tile → List Tile
  | [] => [t]
  | u :: ts => if u.free then ⟨t.addr,t.size+u.size,true⟩ :: ts else t :: u :: ts

/-- Give the tile t between ls and rs back, joined with its free neighbours. -/
def release (ls : List Tile) (t : Tile) (rs : List Tile) : List Tile :=
  match ls.getLast? with
  | none => push ⟨t.addr,t.size,true⟩ rs
  | some u =>
    if u.free then ls.dropLast ++ push ⟨u.addr,u.size+t.size,true⟩ rs
    else ls ++ push ⟨t.addr,t.size,true⟩ rs

/-- The live tile made of t for n bytes: its end, if what remains is worth keeping, or all of it. -/
def carved (keep : ℕ) (t : Tile) (n : ℕ) : Tile :=
  if keep ≤ t.size-n then ⟨t.addr+(t.size-n),n,false⟩ else ⟨t.addr,t.size,false⟩

/-- Take n bytes of the tile t between ls and rs. -/
def carve (keep : ℕ) (ls : List Tile) (t : Tile) (rs : List Tile) (n : ℕ) : List Tile :=
  if keep ≤ t.size-n then ls ++ ⟨t.addr,t.size-n,true⟩ :: carved keep t n :: rs
  else ls ++ carved keep t n :: rs

/-- Join every run of free tiles, from t on. A tile that has reached the limit takes no more. -/
def joinRuns (limit : ℕ) (t : Tile) : List Tile → List Tile
  | [] => [t]
  | u :: ts =>
    if t.size < limit ∧ t.free ∧ u.free then joinRuns limit ⟨t.addr,t.size+u.size,true⟩ ts
    else t :: joinRuns limit u ts

def joinAll (limit : ℕ) : List Tile → List Tile
  | [] => []
  | t :: ts => joinRuns limit t ts

section Carving
variable {lo hi keep n : ℕ} {ls rs : List Tile} {t : Tile}

theorem carved_free : (carved keep t n).free = false := by
  unfold carved
  split <;> rfl

theorem le_size_carved (h : n ≤ t.size) : n ≤ (carved keep t n).size := by
  unfold carved
  split
  · exact le_rfl
  · exact h

/-- The block lies in the tile it is made of. -/
theorem carved_within (h : n ≤ t.size) :
    t.addr ≤ (carved keep t n).addr ∧
      (carved keep t n).addr+(carved keep t n).size ≤ t.addr+t.size := by
  unfold carved
  split
  · dsimp only
    omega
  · exact ⟨le_rfl,le_rfl⟩

theorem Tiles.carve (h : Tiles lo (ls ++ t :: rs) hi) (hkeep : 0 < keep) (hn : 0 < n)
    (hle : n ≤ t.size) : Tiles lo (carve keep ls t rs n) hi := by
  unfold Tiling.carve carved
  split
  · exact h.cut (by omega) hn (by omega) true false
  · exact h.set_free false

theorem lives_carve : lives (carve keep ls t rs n) = lives ls ++ carved keep t n :: lives rs := by
  unfold carve
  split <;> simp [carved_free]

theorem Coalesced.carve (h : Coalesced (ls ++ t :: rs)) (ht : t.free) :
    Coalesced (carve keep ls t rs n) := by
  obtain ⟨hls,htrs,hjoin⟩ := List.isChain_append.mp h
  have hrs := (List.isChain_cons.mp htrs).2
  have hblock : Coalesced (carved keep t n :: rs) :=
    List.isChain_cons.mpr ⟨fun _ _ hfree => absurd hfree (by simp [carved_free]),hrs⟩
  unfold Tiling.carve
  split
  · refine hls.append (List.isChain_cons.mpr ⟨fun u hu _ => ?_,hblock⟩) ?_
    · obtain rfl : carved keep t n = u := by simpa using hu
      exact carved_free
    · intro u hu v hv hfree
      exact absurd (hjoin u hu t rfl hfree) (by simp [ht])
  · refine hls.append hblock (fun u hu v hv _ => ?_)
    obtain rfl : carved keep t n = v := by simpa using hv
    exact carved_free

end Carving

section Joining
variable {lo hi : ℕ} {ts ls rs : List Tile} {t u : Tile}

theorem release_nil : release [] t rs = push ⟨t.addr,t.size,true⟩ rs := rfl

theorem release_concat : release (ls ++ [u]) t rs =
    if u.free then ls ++ push ⟨u.addr,u.size+t.size,true⟩ rs
    else ls ++ u :: push ⟨t.addr,t.size,true⟩ rs := by
  simp [release]

theorem lives_push (ht : t.free) (rs : List Tile) : lives (push t rs) = lives rs := by
  cases rs with
  | nil => simp [push, ht]
  | cons u rs => cases hu : u.free <;> simp [push, ht, hu]

theorem lives_release : lives (release ls t rs) = lives ls ++ lives rs := by
  rcases List.eq_nil_or_concat' ls with rfl | ⟨ls,u,rfl⟩
  · simp [release_nil, lives_push]
  · rw [release_concat]
    cases hu : u.free <;> simp [lives_push, hu]

theorem coalesced_push (hls : Coalesced ls) (hrs : Coalesced rs)
    (hlast : ∀ v ∈ ls.getLast?, v.free = false) : Coalesced (ls ++ push t rs) := by
  have hpush : Coalesced (push t rs) := by
    cases rs with
    | nil => exact .singleton _
    | cons v rs =>
      obtain ⟨hv,hrs'⟩ := List.isChain_cons.mp hrs
      rw [push]
      split
      · rename_i hfree
        exact List.isChain_cons.mpr ⟨fun w hw _ => hv w hw hfree,hrs'⟩
      · rename_i hfree
        refine List.isChain_cons.mpr ⟨fun w hw _ => ?_,hrs⟩
        obtain rfl : v = w := by simpa using hw
        simpa using hfree
  exact hls.append hpush (fun v hv _ _ hfree => absurd hfree (by simp [hlast v hv]))

/-- A tile given back between coalesced neighbours leaves no adjacent pair. -/
theorem coalesced_release (h : Coalesced (ls ++ t :: rs)) : Coalesced (release ls t rs) := by
  have hls : Coalesced ls := h.left_of_append
  have hrs : Coalesced rs := (List.isChain_cons.mp h.right_of_append).2
  rcases List.eq_nil_or_concat' ls with rfl | ⟨ls,u,rfl⟩
  · change Coalesced ([] ++ push ⟨t.addr,t.size,true⟩ rs)
    exact coalesced_push hls hrs (by simp)
  · rw [release_concat]
    split
    · rename_i hu
      refine coalesced_push hls.left_of_append hrs (fun v hv => ?_)
      -- the tile in front of a free one is not free
      by_contra hfree
      have := (List.isChain_append.mp hls).2.2 v hv u rfl (by simpa using hfree)
      exact absurd this (by simp [hu])
    · rename_i hu
      have := coalesced_push (t := ⟨t.addr,t.size,true⟩) hls hrs (by simpa using hu)
      rwa [List.append_assoc] at this

theorem lives_joinRuns (limit : ℕ) (t : Tile) (rs : List Tile) :
    lives (joinRuns limit t rs) = lives (t :: rs) := by
  induction rs generalizing t with
  | nil => rfl
  | cons u rs ih =>
    rw [joinRuns]
    split
    · rename_i hfree
      rw [ih]
      simp [hfree.2.1, hfree.2.2]
    · simp only [lives_cons, ih]

theorem lives_joinAll (limit : ℕ) (ts : List Tile) : lives (joinAll limit ts) = lives ts := by
  cases ts with
  | nil => rfl
  | cons t ts => exact lives_joinRuns limit t ts

/-- In a coalesced tiling no free tile ends where another begins. -/
theorem Coalesced.not_adjacent (hts : Tiles lo ts hi) (h : Coalesced ts) (ht : t ∈ ts) (hu : u ∈ ts)
    (htf : t.free) (huf : u.free) : t.addr+t.size ≠ u.addr := by
  intro hadj
  have htpos := (hts.bounds ht).2.1
  have hupos := (hts.bounds hu).2.1
  obtain ⟨ls,rs,rfl⟩ := List.append_of_mem ht
  have haround := hts.around
  rcases List.mem_append.mp hu with hu | hu
  · have := haround.1 u hu
    omega
  · rcases List.mem_cons.mp hu with rfl | hu
    · omega
    · obtain ⟨as,bs,rfl⟩ := List.append_of_mem hu
      rcases List.eq_nil_or_concat' as with rfl | ⟨as,v,rfl⟩
      · -- u stands right behind t
        have := (List.isChain_cons.mp (List.IsChain.right_of_append h)).1 u rfl htf
        rw [huf] at this
        exact absurd this (by simp)
      · have hv := haround.2 v (by simp)
        have hvpos := (hts.bounds (t := v) (by simp)).2.1
        have hts' : Tiles lo ((ls ++ t :: (as ++ [v])) ++ u :: bs) hi := by simpa using hts
        have := hts'.around.1 v (by simp)
        omega

/-- In a coalesced tiling a range that no live tile meets lies in one free tile. -/
theorem Coalesced.exists_free (hts : Tiles lo ts hi) (h : Coalesced ts) {a b : ℕ} (hab : a < b)
    (ha : lo ≤ a) (hb : b ≤ hi)
    (hlive : ∀ t ∈ ts, t.free = false → t.addr+t.size ≤ a ∨ b ≤ t.addr) :
    ∃ t ∈ ts, t.free ∧ t.addr ≤ a ∧ b ≤ t.addr+t.size := by
  induction ts generalizing lo with
  | nil =>
    obtain rfl : lo = hi := hts
    omega
  | cons t ts ih =>
    obtain ⟨rfl,hpos,hts⟩ := hts
    obtain ⟨hnext,hrest⟩ := List.isChain_cons.mp h
    have hrec : t.addr+t.size ≤ a → ∃ u ∈ t :: ts, u.free ∧ u.addr ≤ a ∧ b ≤ u.addr+u.size := by
      intro hle
      obtain ⟨u,hu,hfree⟩ := ih hts hrest hle (fun u hu => hlive u (List.mem_cons_of_mem t hu))
      exact ⟨u,List.mem_cons_of_mem t hu,hfree⟩
    cases ht : t.free with
    | false =>
      have := hlive t List.mem_cons_self ht
      exact hrec (by omega)
    | true =>
      rcases Nat.lt_or_ge a (t.addr+t.size) with hin | hout
      · refine ⟨t,List.mem_cons_self,ht,ha,?_⟩
        by_contra hover
        -- the tile behind t is live, and the range would reach into it
        cases ts with
        | nil =>
          obtain rfl : t.addr+t.size = hi := hts
          omega
        | cons u ts =>
          have hu := hlive u (by simp) (hnext u rfl ht)
          obtain ⟨hau,hupos,-⟩ := hts
          omega
      · exact hrec hout

/-- A coalesced tiling without live tiles is a single tile. -/
theorem Coalesced.eq_singleton (hts : Tiles lo ts hi) (h : Coalesced ts) (hlt : lo < hi)
    (hlive : lives ts = []) : ts = [⟨lo,hi-lo,true⟩] := by
  have hfree : ∀ t ∈ ts, t.free = true := by
    intro t ht
    by_contra hf
    have : t ∈ lives ts := mem_lives.mpr ⟨ht,by simpa using hf⟩
    rw [hlive] at this
    simp at this
  match ts, hts with
  | [], hts => exact absurd hts (by simp only [tiles_nil]; omega)
  | [t], hts =>
    obtain ⟨rfl,-,hend⟩ := hts
    obtain rfl : t.addr+t.size = hi := hend
    rw [Nat.add_sub_cancel_left, ← hfree t (by simp)]
  | t :: u :: ts, _ =>
    have := (List.isChain_cons.mp h).1 u rfl (hfree t (by simp))
    rw [hfree u (by simp)] at this
    exact absurd this (by simp)

end Joining

end JhCommon.Tiling
