import Mathlib.Data.Nat.Sqrt
import StraightLine.Arena

/-! # Sides of square grids

The two corrections of an estimate end at the integer square root, wherever they start. The same
corrections in words of 64 bits, where an operation that leaves the range has no result, give that root
too, as long as the square of one more than the root fits into a word. -/
namespace StraightLine

namespace Grid

variable {n d : Nat}

theorem lower_mul_self_le (n d : Nat) : lower n d * lower n d ≤ n := by
  induction d with
  | zero => exact Nat.zero_le n
  | succ d ih =>
    rw [lower]
    split
    next => exact ih
    next h => exact Nat.le_of_not_lt h

/-- From a number below the root, as many steps as are missing lead to the root. -/
theorem raise_eq_sqrt {steps : Nat} (hd : d * d ≤ n) (hsteps : n.sqrt ≤ d + steps) :
    raise n steps d = n.sqrt := by
  induction steps generalizing d with
  | zero => exact Nat.le_antisymm (Nat.le_sqrt.2 hd) hsteps
  | succ steps ih =>
    rw [raise]
    split
    next h => exact ih h (by omega)
    next h => exact Nat.eq_sqrt.2 ⟨hd, Nat.lt_of_not_le h⟩

theorem settle_eq_sqrt (n estimate : Nat) : settle n estimate = n.sqrt :=
  raise_eq_sqrt (lower_mul_self_le n estimate)
    (Nat.le_trans (Nat.sqrt_le_self n) (Nat.le_add_left ..))

theorem side_eq_sqrt (n : Nat) : side n = n.sqrt := settle_eq_sqrt n _

@[simp] theorem side_mul_self (d : Nat) : side (d * d) = d := by
  rw [side_eq_sqrt, Nat.sqrt_eq]

end Grid

namespace Word

def product? (a b : UInt64) : Option UInt64 :=
  if a.toNat * b.toNat < UInt64.size then some (a * b) else none

def next? (a : UInt64) : Option UInt64 := if a.toNat + 1 < UInt64.size then some (a + 1) else none

def previous? (a : UInt64) : Option UInt64 := if 0 < a.toNat then some (a - 1) else none

variable {a b c : UInt64}

theorem product?_eq_some : product? a b = some c ↔ c.toNat = a.toNat * b.toNat := by
  unfold product?
  split
  next h =>
    rw [Option.some.injEq, ← UInt64.toNat_inj, UInt64.toNat_mul, Nat.mod_eq_of_lt h, eq_comm]
  next h => exact iff_of_false nofun fun hc => h (hc ▸ c.toNat_lt)

theorem product?_eq_none : product? a b = none ↔ UInt64.size ≤ a.toNat * b.toNat := by
  simp [product?]

theorem next?_eq_some : next? a = some c ↔ c.toNat = a.toNat + 1 := by
  unfold next?
  split
  next h =>
    rw [Option.some.injEq, ← UInt64.toNat_inj, UInt64.toNat_add, UInt64.toNat_one,
      Nat.mod_eq_of_lt h, eq_comm]
  next h => exact iff_of_false nofun fun hc => h (hc ▸ c.toNat_lt)

theorem next?_eq_none : next? a = none ↔ UInt64.size ≤ a.toNat + 1 := by
  simp [next?]

theorem previous?_eq_some : previous? a = some c ↔ c.toNat + 1 = a.toNat := by
  unfold previous?
  split
  next h =>
    have hle : (1 : UInt64) ≤ a := UInt64.le_iff_toNat_le.2 h
    rw [Option.some.injEq, ← UInt64.toNat_inj, UInt64.toNat_sub_of_le _ _ hle, UInt64.toNat_one]
    omega
  next h => exact iff_of_false nofun (by omega)

theorem previous?_eq_none : previous? a = none ↔ a.toNat = 0 := by
  simp [previous?]

end Word

namespace Grid

open Word

/-- The downward correction in words. There is no result once an operation leaves the range. -/
def lowerWord? (n d : UInt64) : Option UInt64 :=
  match product? d d with
  | none => none
  | some square =>
    if n < square then
      match _h : previous? d with
      | none => none
      | some e => lowerWord? n e
    else some d
termination_by d.toNat
decreasing_by
  have := previous?_eq_some.1 _h
  omega

def raiseWord? (n d : UInt64) : Option UInt64 :=
  match _h : next? d with
  | none => none
  | some e =>
    match product? e e with
    | none => none
    | some square => if square ≤ n then raiseWord? n e else some d
termination_by UInt64.size - d.toNat
decreasing_by
  have := next?_eq_some.1 _h
  have := e.toNat_lt_size
  omega

def settleWord? (n estimate : UInt64) : Option UInt64 := do raiseWord? n (← lowerWord? n estimate)

variable {n d : UInt64}

/-- Downwards no operation leaves the range, if the square of the estimate is a word. -/
theorem lowerWord?_eq_some (hd : d.toNat * d.toNat < UInt64.size) :
    ∃ e, lowerWord? n d = some e ∧ e.toNat = lower n.toNat d.toNat := by
  fun_induction lowerWord? n d with
  | case1 d hnone => exact absurd hd (Nat.not_lt.2 (product?_eq_none.1 hnone))
  | case2 d square hsquare hlt hnone =>
    have hzero := previous?_eq_none.1 hnone
    have hsquare' := product?_eq_some.1 hsquare
    rw [UInt64.lt_iff_toNat_lt, hsquare', hzero] at hlt
    exact absurd hlt (Nat.not_lt_zero _)
  | case3 d square hsquare hlt e he ih =>
    have hprevious := previous?_eq_some.1 he
    rw [UInt64.lt_iff_toNat_lt, product?_eq_some.1 hsquare, ← hprevious] at hlt
    rw [← hprevious] at hd ⊢
    rw [lower, if_pos hlt]
    exact ih (Nat.lt_of_le_of_lt (Nat.mul_le_mul (Nat.le_succ _) (Nat.le_succ _)) hd)
  | case4 d square hsquare hle =>
    refine ⟨d, rfl, ?_⟩
    rw [UInt64.lt_iff_toNat_lt, product?_eq_some.1 hsquare] at hle
    cases hzero : d.toNat with
    | zero => rfl
    | succ k => rw [lower, if_neg (hzero ▸ hle)]

/-- Upwards no operation leaves the range, if the square of one more than the root is a word. -/
theorem raiseWord?_eq_some (hd : d.toNat * d.toNat ≤ n.toNat)
    (hn : (n.toNat.sqrt + 1) * (n.toNat.sqrt + 1) < UInt64.size) :
    ∃ e, raiseWord? n d = some e ∧ e.toNat = n.toNat.sqrt := by
  -- The root bounds every number that is squared.
  have hroot : ∀ {k : Nat}, k * k ≤ n.toNat → (k + 1) * (k + 1) < UInt64.size := by
    intro k hk
    have hle := Nat.succ_le_succ (Nat.le_sqrt.2 hk)
    exact Nat.lt_of_le_of_lt (Nat.mul_le_mul hle hle) hn
  fun_induction raiseWord? n d with
  | case1 d hnone =>
    have hlt := Nat.lt_of_le_of_lt (Nat.le_mul_self _) (hroot hd)
    exact absurd hlt (Nat.not_lt.2 (next?_eq_none.1 hnone))
  | case2 d e he hnone =>
    have hle := product?_eq_none.1 hnone
    rw [next?_eq_some.1 he] at hle
    exact absurd (hroot hd) (Nat.not_lt.2 hle)
  | case3 d e he square hsquare hle ih =>
    rw [UInt64.le_iff_toNat_le, product?_eq_some.1 hsquare] at hle
    exact ih hle
  | case4 d e he square hsquare hlt =>
    rw [UInt64.le_iff_toNat_le, product?_eq_some.1 hsquare, next?_eq_some.1 he] at hlt
    exact ⟨d, rfl, Nat.eq_sqrt.2 ⟨hd, Nat.lt_of_not_le hlt⟩⟩

theorem settleWord?_eq_some {estimate : UInt64}
    (hestimate : estimate.toNat * estimate.toNat < UInt64.size)
    (hn : (n.toNat.sqrt + 1) * (n.toNat.sqrt + 1) < UInt64.size) :
    ∃ e, settleWord? n estimate = some e ∧ e.toNat = n.toNat.sqrt := by
  obtain ⟨e, he, hlower⟩ := lowerWord?_eq_some (n := n) hestimate
  obtain ⟨d, hd, hroot⟩ := raiseWord?_eq_some (hlower ▸ lower_mul_self_le _ _) hn
  exact ⟨d, by simp [settleWord?, he, hd], hroot⟩

/-- Both corrections end, with no operation outside the range of a word, for every number of cells below
the square of the greatest half word and every estimate that is a half word. The result is the integer
square root and the side of the grid; a square grid has its own side. -/
theorem side_is_integer_root :
    (∀ n estimate : UInt64, n.toNat < 4294967295 * 4294967295 → estimate.toNat ≤ 4294967295 →
      ∃ d, settleWord? n estimate = some d ∧ d.toNat = settle n.toNat estimate.toNat ∧
        d.toNat = side n.toNat ∧ d.toNat * d.toNat ≤ n.toNat ∧
        n.toNat < (d.toNat + 1) * (d.toNat + 1)) ∧
      ∀ d estimate : UInt64, d.toNat < 4294967295 → estimate.toNat ≤ 4294967295 →
        settleWord? (d * d) estimate = some d ∧ side (d.toNat * d.toNat) = d.toNat := by
  have hword : 4294967295 * 4294967295 < UInt64.size := by decide
  have hsettle : ∀ n estimate : UInt64, n.toNat < 4294967295 * 4294967295 →
      estimate.toNat ≤ 4294967295 →
      ∃ d, settleWord? n estimate = some d ∧ d.toNat = n.toNat.sqrt := by
    intro n estimate hn hestimate
    have hroot : n.toNat.sqrt + 1 ≤ 4294967295 := Nat.sqrt_lt.2 hn
    exact settleWord?_eq_some (Nat.lt_of_le_of_lt (Nat.mul_le_mul hestimate hestimate) hword)
      (Nat.lt_of_le_of_lt (Nat.mul_le_mul hroot hroot) hword)
  refine ⟨fun n estimate hn hestimate => ?_, fun d estimate hd hestimate => ⟨?_, side_mul_self _⟩⟩
  · obtain ⟨d, hd, hroot⟩ := hsettle n estimate hn hestimate
    refine ⟨d, hd, by rw [hroot, settle_eq_sqrt], by rw [hroot, side_eq_sqrt], ?_⟩
    exact Nat.eq_sqrt.1 hroot
  · have hsquare : (d * d).toNat = d.toNat * d.toNat := by
      rw [UInt64.toNat_mul, Nat.mod_eq_of_lt]
      exact Nat.lt_trans (Nat.mul_lt_mul'' hd hd) hword
    have hlt : (d * d).toNat < 4294967295 * 4294967295 := by
      rw [hsquare]
      exact Nat.mul_lt_mul'' hd hd
    obtain ⟨e, he, hroot⟩ := hsettle (d * d) estimate hlt hestimate
    rw [hsquare, Nat.sqrt_eq] at hroot
    rw [he, UInt64.toNat_inj.1 hroot]

/-- At the top of the range an estimate that is one too high is lowered. -/
theorem side_is_integer_root_of_high_estimate :
    settleWord? 18446744065119617024 4294967295 = some 4294967294 ∧
      side 18446744065119617024 = 4294967294 ∧
      settleWord? (4294967294 * 4294967294) 0 = some 4294967294 := by
  obtain ⟨hsettle, hsquare⟩ := side_is_integer_root
  obtain ⟨d, hd, -, hside, hle, hlt⟩ :=
    hsettle 18446744065119617024 4294967295 (by decide) (by decide)
  have hroot : d.toNat = 4294967294 :=
    (Nat.eq_sqrt.2 ⟨hle, hlt⟩).trans (Nat.eq_sqrt.2 ⟨by decide, by decide⟩).symm
  refine ⟨?_, hside.symm.trans hroot, (hsquare 4294967294 0 (by decide) (by decide)).1⟩
  rw [hd, show d = 4294967294 from UInt64.toNat_inj.1 hroot]

end Grid

end StraightLine
