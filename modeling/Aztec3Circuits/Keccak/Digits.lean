import Mathlib.Algebra.BigOperators.Ring
import Mathlib.Data.Nat.Digits

/-! Numbers by their digits. The Keccak circuit holds a 64-bit lane in the base-11 "sparse"
form `∑ bit k * 11 ^ k`, adds sparse values digit by digit while no digit passes 10, and reads
digits back through lookup tables and `normalize_sparse`. Bytes and binary lanes are the same
construction in bases 256 and 2. -/
namespace Aztec3Circuits.Keccak

open Finset

def digitSum (b n : Nat) (d : Nat → Nat) : Nat := ∑ k ∈ range n, d k * b ^ k

section DigitSum

variable {b n : Nat} {d e : Nat → Nat}

@[simp] theorem digitSum_zero : digitSum b 0 d = 0 := rfl

theorem digitSum_succ : digitSum b (n + 1) d = digitSum b n d + d n * b ^ n :=
  sum_range_succ _ _

theorem digitSum_succ' : digitSum b (n + 1) d = d 0 + b * digitSum b n fun k => d (k + 1) := by
  rw [digitSum, sum_range_succ', digitSum, mul_sum]
  simp only [pow_succ, pow_zero, mul_one]
  rw [add_comm]
  congr 1
  exact sum_congr rfl fun k _ => by ring

theorem digitSum_add : digitSum b n (fun k => d k + e k) = digitSum b n d + digitSum b n e := by
  simp only [digitSum, add_mul, sum_add_distrib]

theorem digitSum_congr (same : ∀ k < n, d k = e k) : digitSum b n d = digitSum b n e :=
  sum_congr rfl fun k mem => by rw [same k (mem_range.mp mem)]

theorem digitSum_split (m : Nat) :
    digitSum b (m + n) d = digitSum b m d + b ^ m * digitSum b n fun k => d (m + k) := by
  rw [digitSum, sum_range_add, digitSum, digitSum, mul_sum]
  congr 1
  exact sum_congr rfl fun k _ => by ring

theorem digitSum_lt (small : ∀ k < n, d k < b) : digitSum b n d < b ^ n := by
  induction n with
  | zero => simp
  | succ n ih =>
    have low := ih fun k hk => small k (by omega)
    calc digitSum b (n + 1) d = digitSum b n d + d n * b ^ n := digitSum_succ
      _ < b ^ n + d n * b ^ n := by omega
      _ = (d n + 1) * b ^ n := by ring
      _ ≤ b * b ^ n := Nat.mul_le_mul_right _ (small n (by omega))
      _ = b ^ (n + 1) := (pow_succ' b n).symm

variable {m : Nat} (small : ∀ k < m, d k < b)
include small

theorem digitSum_mod : digitSum b (m + n) d % b ^ m = digitSum b m d := by
  rw [digitSum_split, Nat.add_mul_mod_self_left, Nat.mod_eq_of_lt (digitSum_lt small)]

theorem digitSum_div : digitSum b (m + n) d / b ^ m = digitSum b n fun k => d (m + k) := by
  have pos : 0 < b ^ m := Nat.lt_of_le_of_lt (Nat.zero_le _) (lt_of_le_of_lt (Nat.zero_le _)
    (digitSum_lt (b := b) small))
  rw [digitSum_split, Nat.add_mul_div_left _ _ pos, Nat.div_eq_of_lt (digitSum_lt small), zero_add]

end DigitSum

theorem digit_digitSum {b n k : Nat} {d : Nat → Nat} (small : ∀ k < n, d k < b) (hk : k < n) :
    digitSum b n d / b ^ k % b = d k := by
  obtain ⟨r, rfl⟩ : ∃ r, n = k + (r + 1) := ⟨n - k - 1, by omega⟩
  rw [digitSum_div (fun j hj => small j (by omega)), digitSum_succ', Nat.add_mul_mod_self_left,
    Nat.add_zero, Nat.mod_eq_of_lt (small k (by omega))]

theorem digitSum_slice {b n c w : Nat} {d : Nat → Nat} (small : ∀ k < n, d k < b) (fits : c + w ≤ n) :
    digitSum b n d / b ^ c % b ^ w = digitSum b w fun k => d (c + k) := by
  obtain ⟨r, rfl⟩ : ∃ r, n = c + (w + r) := ⟨n - c - w, by omega⟩
  rw [digitSum_div fun k hk => small k (by omega), digitSum_mod fun k hk => small (c + k) (by omega)]

theorem digitSum_div_top {b w : Nat} {d : Nat → Nat} (small : ∀ k < w + 1, d k < b) :
    digitSum b (w + 1) d / b ^ w = d w := by
  have low := digitSum_lt fun k (hk : k < w) => small k (by omega)
  rw [digitSum_succ, Nat.add_mul_div_right _ _ (Nat.zero_lt_of_lt low),
    Nat.div_eq_of_lt low, Nat.zero_add]

theorem digitSum_digits {b n v : Nat} (lt : v < b ^ n) :
    digitSum b n (fun k => v / b ^ k % b) = v := by
  induction n generalizing v with
  | zero => simp at lt; simp [lt]
  | succ n ih =>
    rw [digitSum_succ']
    have rest : v / b < b ^ n := Nat.div_lt_of_lt_mul (by rwa [← pow_succ'])
    have shifted : ∀ k, v / b ^ (k + 1) % b = v / b / b ^ k % b := fun k => by
      rw [pow_succ', Nat.div_div_eq_div_mul]
    simp only [shifted, ih rest, pow_zero, Nat.div_one]
    exact Nat.mod_add_div v b

def lookupDigits (inBase outBase width : Nat) (f : Nat → Nat) (v : Nat) : Nat :=
  digitSum outBase width fun k => f (v / inBase ^ k % inBase)

theorem lookupDigits_digitSum {inBase outBase n : Nat} (f : Nat → Nat) {d : Nat → Nat}
    (small : ∀ k < n, d k < inBase) :
    lookupDigits inBase outBase n f (digitSum inBase n d) = digitSum outBase n fun k => f (d k) :=
  digitSum_congr fun k hk => by rw [digit_digitSum small hk]

/-- Modelled from the spec: `numeric::normalize_sparse`, not part of the sources, as the comment
of `normalize_and_rotate` describes it: every base-11 digit replaced by its parity. -/
def normalizeSparse (v : Nat) : Nat := Nat.ofDigits 11 ((Nat.digits 11 v).map (· % 2))

@[simp] theorem normalizeSparse_zero : normalizeSparse 0 = 0 := by
  simp [normalizeSparse]

theorem normalizeSparse_add_mul {a : Nat} (ha : a < 11) (w : Nat) :
    normalizeSparse (a + 11 * w) = a % 2 + 11 * normalizeSparse w := by
  by_cases zero : a = 0 ∧ w = 0
  · obtain ⟨rfl, rfl⟩ := zero
    simp
  · rw [normalizeSparse, Nat.digits_add 11 (by decide) a w ha (by omega), List.map_cons,
      Nat.ofDigits_cons]
    rfl

theorem normalizeSparse_digitSum {n : Nat} {d : Nat → Nat} (small : ∀ k < n, d k < 11) :
    normalizeSparse (digitSum 11 n d) = digitSum 11 n fun k => d k % 2 := by
  induction n generalizing d with
  | zero => simp
  | succ n ih =>
    rw [digitSum_succ', normalizeSparse_add_mul (small 0 (by omega)), ih fun k hk => small (k + 1) (by omega),
      digitSum_succ']

end Aztec3Circuits.Keccak
