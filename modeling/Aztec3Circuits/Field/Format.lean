import Mathlib.Data.Nat.Digits
import Aztec3Circuits.Field.Cast

/-! The two base-16 readings of a field element's limbs. `operator<<` prints the canonical integer
as `0x` and four limbs of sixteen hexadecimal digits each, most significant first, and `wnaf_table`
cuts a `uint256_t` into its 64 four-bit windows, least significant first. Printing reads the
stream's format flags, width and fill: the text `0x` takes the caller's width and fill, and each
limb is padded with `'0'` as the adjustment says and written in upper case under `uppercase`. On a
stream without `showbase` and not adjusted left, the printed digits are the windows in reverse
order, and they read back as the canonical integer. The saved flags are put back, but the fill
character that `std::setfill('0')` sets is not a format flag, and it stays `'0'`. -/
namespace Aztec3Circuits.Field

/-- The `basefield` of a stream's format flags: the base it prints integers in. -/
inductive Basefield
  | dec
  | oct
  | hex
  deriving DecidableEq, Repr

def Basefield.base : Basefield → Nat
  | .dec => 10
  | .oct => 8
  | .hex => 16

/-- The `adjustfield` of a stream's format flags; a stream with none of its bits set pads as
`right` does. -/
inductive Adjustfield
  | left
  | right
  | internal
  deriving DecidableEq, Repr

/-- The format flags `os.flags()` returns and `os.flags(f)` sets, as far as printing an unsigned
integer or a string reads them. -/
structure FmtFlags where
  basefield : Basefield
  showbase : Bool
  uppercase : Bool
  adjustfield : Adjustfield
  deriving DecidableEq, Repr

/-- The part of a `std::ostream` that printing a field element reads and writes. -/
structure OStream where
  text : List Char
  flags : FmtFlags
  width : Nat
  fill : Char

def caseDigit (upper : Bool) (c : Char) : Char := if upper then c.toUpper else c

def OStream.putString (os : OStream) (s : List Char) : OStream :=
  let padding := List.replicate (os.width - s.length) os.fill
  { os with text := os.text ++ (if os.flags.adjustfield = .left then s ++ padding else padding ++ s), width := 0 }

/-- `os << v` for an unsigned integer, as `num_put` writes it: the digits in the stream's base, in
upper case under `uppercase`; under `showbase`, `0x` before a nonzero hexadecimal number and a
leading `0` on a nonzero octal one; padded with the fill to the width, after the number under
`std::left`, between `0x` and the digits under `std::internal`, and before it otherwise. The
width goes back to `0`. -/
def OStream.putNumber (os : OStream) (v : Nat) : OStream :=
  let flags := os.flags
  let digits := ((if flags.showbase ∧ flags.basefield = .oct ∧ v ≠ 0 then ['0'] else []) ++
    Nat.toDigits flags.basefield.base v).map (caseDigit flags.uppercase)
  let marker := if flags.showbase ∧ flags.basefield = .hex ∧ v ≠ 0 then ['0', caseDigit flags.uppercase 'x'] else []
  let padding := List.replicate (os.width - (marker.length + digits.length)) os.fill
  let body := match flags.adjustfield with
    | .left => marker ++ digits ++ padding
    | .internal => marker ++ padding ++ digits
    | .right => padding ++ marker ++ digits
  { os with text := os.text ++ body, width := 0 }

namespace FieldParams

variable (F : FieldParams)

/-- `operator<<(os, a)`: `std::hex`, the text `0x`, `std::setfill('0')`, then `data[3]`, …,
`data[0]` of `a.from_montgomery_form()` each after `std::setw(16)`, and the saved flags put back
with `os.flags(f)`. -/
def streamOut (os : OStream) (a : Nat) : OStream :=
  let out := F.fromMontgomeryForm a
  let f := os.flags
  let os := ({ os with flags := { f with basefield := .hex } }).putString ['0', 'x']
  let put (os : OStream) (i : Nat) : OStream := ({ os with width := 16 }).putNumber (limb out i).toNat
  let os := put (put (put (put { os with fill := '0' } 3) 2) 1) 0
  { os with flags := f }

end FieldParams

/-- `wnaf_table(target)`: window `i` is `(uint8_t)((target.data[i / 16] >> (4 * (i % 16))) & 15)`,
the 64 entries of its initializer in order. -/
def wnafWindows (target : Nat) : List UInt8 :=
  (List.range 64).map fun i => (((limb target (i / 16)).toNat >>> (4 * (i % 16))) &&& 15).toUInt8

def hexDigits : Nat → Nat → List Char
  | 0, _ => []
  | k + 1, v => hexDigits k (v / 16) ++ [Nat.digitChar (v % 16)]

def hexDigitValue (c : Char) : Nat :=
  if c.isDigit then c.toNat - 48 else if c.isUpper then c.toNat - 55 else c.toNat - 87

def hexValue (text : List Char) : Nat := text.foldl (fun acc c => 16 * acc + hexDigitValue c) 0

theorem hexDigitValue_digitChar : ∀ u, ∀ d < 16, hexDigitValue (caseDigit u (Nat.digitChar d)) = d := by decide

@[simp] theorem caseDigit_zero (u : Bool) : caseDigit u '0' = '0' := by cases u <;> rfl

theorem hexValue_append_singleton (text : List Char) (c : Char) :
    hexValue (text ++ [c]) = 16 * hexValue text + hexDigitValue c := by
  rw [hexValue, List.foldl_append]
  rfl

theorem toDigitsCore_append (b fuel n : Nat) (ds : List Char) :
    Nat.toDigitsCore b fuel n ds = Nat.toDigitsCore b fuel n [] ++ ds := by
  induction fuel generalizing n ds with
  | zero => rfl
  | succ fuel ih =>
    simp only [Nat.toDigitsCore]
    split_ifs
    · rfl
    · rw [ih _ (_ :: ds), ih _ [_], List.append_assoc, List.singleton_append]

theorem hexDigits_of_zero (k : Nat) : hexDigits k 0 = List.replicate k '0' := by
  induction k with
  | zero => rfl
  | succ k ih => rw [hexDigits, Nat.zero_div, ih, List.replicate_succ']; rfl

theorem padded_toDigitsCore (k : Nat) {n fuel : Nat} (hn : n < 16 ^ (k + 1)) (enough : n < fuel) :
    List.replicate (k + 1 - (Nat.toDigitsCore 16 fuel n []).length) '0' ++ Nat.toDigitsCore 16 fuel n [] =
      hexDigits (k + 1) n := by
  induction k generalizing n fuel with
  | zero =>
    cases fuel with
    | zero => omega
    | succ f => simp [Nat.toDigitsCore, hexDigits, Nat.div_eq_of_lt (show n < 16 by simpa using hn)]
  | succ k ih =>
    cases fuel with
    | zero => omega
    | succ f =>
      rw [Nat.toDigitsCore]
      split_ifs with top
      · rw [hexDigits, top, hexDigits_of_zero, List.length_singleton, Nat.add_sub_cancel]
      · have below : n / 16 < 16 ^ (k + 1) := Nat.div_lt_of_lt_mul (by rw [← pow_succ']; exact hn)
        rw [toDigitsCore_append, List.length_append, List.length_singleton, hexDigits, ← @ih (n / 16) f below (by omega),
          show k + 1 + 1 - ((Nat.toDigitsCore 16 f (n / 16) []).length + 1) =
            k + 1 - (Nat.toDigitsCore 16 f (n / 16) []).length by omega, List.append_assoc]

@[simp] theorem OStream.flags_putNumber (os : OStream) (v : Nat) : (os.putNumber v).flags = os.flags := rfl

@[simp] theorem OStream.fill_putNumber (os : OStream) (v : Nat) : (os.putNumber v).fill = os.fill := rfl

@[simp] theorem OStream.flags_putString (os : OStream) (s : List Char) : (os.putString s).flags = os.flags := rfl

@[simp] theorem OStream.fill_putString (os : OStream) (s : List Char) : (os.putString s).fill = os.fill := rfl

theorem OStream.text_putString (os : OStream) (s : List Char) (adjusted : os.flags.adjustfield ≠ .left) :
    (os.putString s).text = os.text ++ List.replicate (os.width - s.length) os.fill ++ s := by
  simp only [OStream.putString, if_neg adjusted, List.append_assoc]

theorem OStream.text_putNumber_hex (os : OStream) {v : Nat} (hex : os.flags.basefield = .hex)
    (plain : os.flags.showbase = false) (adjusted : os.flags.adjustfield ≠ .left) (width : os.width = 16)
    (zero : os.fill = '0') (hv : v < 2 ^ 64) :
    (os.putNumber v).text = os.text ++ (hexDigits 16 v).map (caseDigit os.flags.uppercase) := by
  rw [← padded_toDigitsCore 15 (show v < 16 ^ 16 from hv) (Nat.lt_succ_self v), List.map_append, List.map_replicate,
    caseDigit_zero]
  rcases os with ⟨text, ⟨base, showbase, upper, adjust⟩, width, fill⟩
  dsimp only at hex plain adjusted width zero ⊢
  subst hex plain width zero
  cases adjust
  · exact absurd rfl adjusted
  all_goals simp [OStream.putNumber, Basefield.base, Nat.toDigits]

theorem hexDigits_add (k m v : Nat) : hexDigits (k + m) v = hexDigits k (v / 16 ^ m) ++ hexDigits m v := by
  induction m generalizing v with
  | zero => simp [hexDigits]
  | succ m ih =>
    rw [← Nat.add_assoc, hexDigits, ih, hexDigits, Nat.div_div_eq_div_mul, ← pow_succ', List.append_assoc]

theorem hexDigits_mod (k v : Nat) : hexDigits k (v % 16 ^ k) = hexDigits k v := by
  induction k generalizing v with
  | zero => rfl
  | succ k ih =>
    rw [hexDigits, hexDigits, pow_succ', Nat.mod_mul_right_div_self, ih, Nat.mod_mul_right_mod]

theorem hexValue_hexDigits (u : Bool) (k v : Nat) : hexValue ((hexDigits k v).map (caseDigit u)) = v % 16 ^ k := by
  induction k generalizing v with
  | zero => rw [pow_zero, Nat.mod_one]; rfl
  | succ k ih =>
    rw [hexDigits, List.map_append, List.map_singleton, hexValue_append_singleton, ih,
      hexDigitValue_digitChar _ _ (Nat.mod_lt _ (by decide)),
      pow_succ', Nat.mod_mul]
    omega

theorem hexDigits_eq_reverse (k v : Nat) :
    hexDigits k v = ((List.range k).map fun j => Nat.digitChar (v / 16 ^ j % 16)).reverse := by
  induction k generalizing v with
  | zero => rfl
  | succ k ih =>
    rw [hexDigits, ih, List.range_succ_eq_map, List.map_cons, List.map_map, List.reverse_cons]
    simp [Function.comp_def, Nat.div_div_eq_div_mul, pow_succ']

theorem hexDigits_limb (x i : Nat) : hexDigits 16 (limb x i).toNat = hexDigits 16 (x / 16 ^ (16 * i)) := by
  rw [toNat_limb, show 2 ^ (64 * i) = 16 ^ (16 * i) by rw [pow_mul, pow_mul]; norm_num,
    show (2 : Nat) ^ 64 = 16 ^ 16 by norm_num, hexDigits_mod]

theorem toNat_window (x i : Nat) :
    ((((limb x (i / 16)).toNat >>> (4 * (i % 16))) &&& 15).toUInt8).toNat = x / 16 ^ i % 16 := by
  have mask : ((limb x (i / 16)).toNat >>> (4 * (i % 16))) &&& 15 < 16 :=
    Nat.lt_succ_of_le Nat.and_le_right
  have split : (16 : Nat) ^ 16 = 16 ^ (i % 16) * 16 ^ (16 - i % 16) := by
    rw [← pow_add, Nat.add_sub_cancel' (Nat.mod_lt _ (by decide)).le]
  have dvd : 16 ∣ 16 ^ (16 - i % 16) := dvd_pow_self 16 (by omega)
  rw [UInt8.toNat_ofNat_of_lt (mask.trans (by decide)), show (15 : Nat) = 2 ^ 4 - 1 from rfl,
    Nat.and_pow_two_sub_one_eq_mod, Nat.shiftRight_eq_div_pow, toNat_limb,
    show 2 ^ (64 * (i / 16)) = 16 ^ (16 * (i / 16)) by rw [pow_mul, pow_mul]; norm_num,
    show (2 : Nat) ^ (4 * (i % 16)) = 16 ^ (i % 16) by rw [pow_mul]; norm_num,
    show (2 : Nat) ^ 64 = 16 ^ 16 by norm_num, split, Nat.mod_mul_right_div_self, Nat.mod_mod_of_dvd _ dvd,
    Nat.div_div_eq_div_mul, ← pow_add, Nat.div_add_mod]

theorem ofDigits_range_digits (b v k : Nat) : Nat.ofDigits b ((List.range k).map fun i => v / b ^ i % b) = v % b ^ k := by
  induction k with
  | zero => rw [pow_zero, Nat.mod_one]; rfl
  | succ k ih =>
    rw [List.range_succ, List.map_append, Nat.ofDigits_append, ih, List.length_map, List.length_range,
      List.map_singleton, Nat.ofDigits_singleton, Nat.mod_pow_succ]

theorem map_toNat_wnafWindows (target : Nat) :
    (wnafWindows target).map UInt8.toNat = (List.range 64).map fun i => target / 16 ^ i % 16 := by
  rw [wnafWindows, List.map_map]
  exact List.map_congr_left fun i _ => toNat_window target i

/-- `wnaf_table` cuts its target into 64 windows of four bits whose base-16 digits, least
significant first, give the target back. -/
theorem wnafWindows_digits (target : Nat) :
    (∀ w ∈ wnafWindows target, w.toNat < 16) ∧
      Nat.ofDigits 16 ((wnafWindows target).map UInt8.toNat) = target % radix := by
  refine ⟨fun w mem => ?_, by rw [map_toNat_wnafWindows, ofDigits_range_digits]; rfl⟩
  have digit : w.toNat ∈ (wnafWindows target).map UInt8.toNat := List.mem_map_of_mem _ mem
  rw [map_toNat_wnafWindows] at digit
  obtain ⟨i, -, window⟩ := List.mem_map.mp digit
  exact window ▸ Nat.mod_lt _ (by decide)

theorem hexDigits_limbs (x : Nat) :
    hexDigits 16 (limb x 3).toNat ++ (hexDigits 16 (limb x 2).toNat ++ (hexDigits 16 (limb x 1).toNat ++
      hexDigits 16 (limb x 0).toNat)) = hexDigits 64 x := by
  rw [hexDigits_limb, hexDigits_limb, hexDigits_limb, hexDigits_limb,
    show hexDigits 64 x = _ from hexDigits_add 16 48 x, show hexDigits 48 x = _ from hexDigits_add 16 32 x,
    show hexDigits 32 x = _ from hexDigits_add 16 16 x]
  simp only [List.append_assoc, Nat.mul_zero, pow_zero, Nat.div_one]

theorem hexDigits_eq_wnafWindows (x : Nat) :
    hexDigits 64 x = ((wnafWindows x).map fun w => Nat.digitChar w.toNat).reverse := by
  rw [hexDigits_eq_reverse, show (fun w : UInt8 => Nat.digitChar w.toNat) = Nat.digitChar ∘ UInt8.toNat from rfl,
    ← List.map_map, map_toNat_wnafWindows, List.map_map]
  rfl

namespace FieldParams

variable (F : FieldParams)

/-- A caller's stream under `std::uppercase`, with `std::setw(4)` and `std::setfill('*')` pending. -/
def uppercaseStream : OStream := ⟨[], ⟨.dec, false, true, .right⟩, 4, '*'⟩

/-- Under `std::left` the fill goes after each limb's digits, and the text no longer reads as the
integer: `74 = 0x4a` comes out with fourteen zeros after its digits. -/
example : (fieldParams97.streamOut ⟨[], ⟨.dec, false, false, .left⟩, 0, ' '⟩ (fieldParams97.toMontgomeryForm 171)).text =
    '0' :: 'x' :: List.replicate 48 '0' ++ ['4', 'a'] ++ List.replicate 14 '0' := by decide

end FieldParams

end Aztec3Circuits.Field
