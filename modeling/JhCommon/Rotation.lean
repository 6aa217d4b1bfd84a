import Mathlib.Tactic

/-! Sequences of numbers below c that go down by u, and up by c where they would pass zero. They
come to every number below c that differs from the first one by a multiple of gcd(c,u). -/
namespace JhCommon.Rotation

def turn (c u x : ℕ) : ℕ := if u ≤ x then x-u else x+c-u

section Turns
variable {c u x : ℕ}

theorem turn_modEq (h : u ≤ x+c) : turn c u x+u ≡ x [MOD c] := by
  unfold turn
  split
  · rw [Nat.sub_add_cancel (by assumption)]
  · rw [Nat.sub_add_cancel h]
    exact Nat.add_mod_right x c

theorem turn_lt (hu : 0 < u) (h : u ≤ x+c) (hx : x < c ∨ x < u) : turn c u x < c := by
  unfold turn
  split <;> omega

theorem dvd_turn {d : ℕ} (hc : d ∣ c) (hu : d ∣ u) (hx : d ∣ x) : d ∣ turn c u x := by
  unfold turn
  split
  · exact Nat.dvd_sub hx hu
  · exact Nat.dvd_sub (Dvd.dvd.add hx hc) hu

/-- Some multiple of u is the gcd, up to multiples of c. -/
theorem exists_mul_modEq_gcd (hc : 0 < c) : ∃ m, m*u ≡ c.gcd u [MOD c] := by
  rcases Nat.lt_or_ge (c.gcd u) c with hlt | hge
  · rw [Nat.gcd_comm] at hlt
    obtain ⟨m,-,hm⟩ := Nat.exists_mul_mod_eq_gcd hlt
    refine ⟨m,?_⟩
    calc m*u % c = u*m % c := by rw [Nat.mul_comm]
      _ = u.gcd c := hm
      _ = c.gcd u := Nat.gcd_comm u c
      _ = c.gcd u % c := (Nat.mod_eq_of_lt (by rw [Nat.gcd_comm]; exact hlt)).symm
  · have heq : c.gcd u = c := le_antisymm (Nat.le_of_dvd hc (Nat.gcd_dvd_left c u)) hge
    refine ⟨0,?_⟩
    rw [heq, Nat.zero_mul]
    exact (Nat.mod_self c).symm

end Turns

section Sequences
variable {c u : ℕ} {f : ℕ → ℕ} (hstep : ∀ n, f (n+1) = turn c u (f n)) (hle : ∀ n, u ≤ f n+c)
include hstep hle

theorem sequence_modEq (n : ℕ) : f n+n*u ≡ f 0 [MOD c] := by
  induction n with
  | zero => simp [Nat.ModEq]
  | succ n ih =>
    have hturn : f (n+1)+u ≡ f n [MOD c] := by
      rw [hstep]
      exact turn_modEq (hle n)
    calc f (n+1)+(n+1)*u = f (n+1)+u+n*u := by ring
      _ ≡ f n+n*u [MOD c] := hturn.add_right (n*u)
      _ ≡ f 0 [MOD c] := ih

theorem sequence_reaches (hlt : ∀ n, f n < c) {y : ℕ} (hy : y < c) (hdvd : f 0 ≡ y [MOD c.gcd u]) :
    ∃ n, f n = y := by
  have hc : 0 < c := by omega
  obtain ⟨m,hm⟩ := exists_mul_modEq_gcd (u := u) hc
  -- how far it is down from the first number to y, with one turn more
  obtain ⟨q,hq⟩ : c.gcd u ∣ f 0+c-y := by
    apply (Nat.modEq_iff_dvd' (by omega)).mp
    calc y ≡ f 0 [MOD c.gcd u] := hdvd.symm
      _ ≡ f 0+c [MOD c.gcd u] := by
        rw [Nat.ModEq, Nat.add_mod, Nat.mod_eq_zero_of_dvd (Nat.gcd_dvd_left c u), Nat.add_zero,
          Nat.mod_mod]
  have hdown : m*q*u+y ≡ f 0 [MOD c] := by
    calc m*q*u+y = m*u*q+y := by ring
      _ ≡ c.gcd u*q+y [MOD c] := (hm.mul_right q).add_right y
      _ = f 0+c-y+y := by rw [hq]
      _ = f 0+c := by omega
      _ ≡ f 0 [MOD c] := Nat.add_mod_right (f 0) c
  have hsame : f (m*q)+m*q*u ≡ y+m*q*u [MOD c] := by
    calc f (m*q)+m*q*u ≡ f 0 [MOD c] := sequence_modEq hstep hle (m*q)
      _ ≡ m*q*u+y [MOD c] := hdown.symm
      _ = y+m*q*u := Nat.add_comm _ _
  have heq : f (m*q) ≡ y [MOD c] := hsame.add_right_cancel' _
  refine ⟨m*q,?_⟩
  rw [Nat.ModEq, Nat.mod_eq_of_lt (hlt _), Nat.mod_eq_of_lt hy] at heq
  exact heq

omit hle in
/-- It goes down until it is turned back for the first time. -/
theorem exists_sequence_lt (hu : 0 < u) : ∃ i, f i < u := by
  by_contra hnot
  rw [not_exists] at hnot
  have hdown : ∀ n, f n+n*u = f 0 := by
    intro n
    induction n with
    | zero => rw [Nat.zero_mul, Nat.add_zero]
    | succ n ih =>
      have hn := hnot n
      rw [hstep, turn, if_pos (by omega), Nat.succ_mul]
      omega
  have hlast := hdown (f 0+1)
  have hmul : f 0+1 ≤ (f 0+1)*u := Nat.le_mul_of_pos_right _ hu
  omega

/-- Once turned back it stays below c. -/
theorem sequence_lt (hu : 0 < u) {i : ℕ} (hi : f i < u) (n : ℕ) : f (i+1+n) < c := by
  induction n with
  | zero =>
    rw [Nat.add_zero, hstep]
    exact turn_lt hu (hle i) (.inr hi)
  | succ n ih =>
    rw [← Nat.add_assoc, hstep]
    exact turn_lt hu (hle _) (.inl ih)

/-- It comes to a number below the gcd, and to the highest one below c that differs from it by a
multiple of the gcd. -/
theorem sequence_extremes (hu : 0 < u) :
    ∃ low high, f low < c.gcd u ∧ f high+c.gcd u = f low+c := by
  obtain ⟨i,hi⟩ := exists_sequence_lt hstep hu
  have hbelow := sequence_lt hstep hle hu hi
  have hc : 0 < c := (Nat.zero_le _).trans_lt (hbelow 0)
  have hgcd : 0 < c.gcd u := Nat.gcd_pos_of_pos_left _ hc
  have hgcdc : c.gcd u ≤ c := Nat.le_of_dvd hc (Nat.gcd_dvd_left _ _)
  have hreaches (y : ℕ) (hy : y < c) (hmod : f (i+1) ≡ y [MOD c.gcd u]) : ∃ n, f (i+1+n) = y :=
    sequence_reaches (f := fun n => f (i+1+n)) (fun n => hstep (i+1+n)) (fun n => hle (i+1+n)) hbelow hy hmod
  obtain ⟨r,hr⟩ : ∃ r, r = f (i+1) % c.gcd u := ⟨_,rfl⟩
  have hlt : r < c.gcd u := hr ▸ Nat.mod_lt _ hgcd
  have hmod : f (i+1) ≡ r [MOD c.gcd u] := hr ▸ (Nat.mod_modEq _ _).symm
  have hzero : c-c.gcd u ≡ 0 [MOD c.gcd u] :=
    (Nat.dvd_sub (Nat.gcd_dvd_left _ _) dvd_rfl).modEq_zero_nat
  have htop : f (i+1) ≡ c-c.gcd u+r [MOD c.gcd u] := by
    calc f (i+1) ≡ r [MOD c.gcd u] := hmod
      _ = 0+r := (Nat.zero_add r).symm
      _ ≡ c-c.gcd u+r [MOD c.gcd u] := hzero.symm.add_right r
  obtain ⟨low,hlow⟩ := hreaches r (by omega) hmod
  obtain ⟨high,hhigh⟩ := hreaches (c-c.gcd u+r) (by omega) htop
  exact ⟨i+1+low,i+1+high,by omega,by omega⟩

end Sequences

end JhCommon.Rotation
