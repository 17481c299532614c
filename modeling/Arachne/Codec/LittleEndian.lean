import Mathlib.Tactic.Ring
import Mathlib.Data.List.Basic

/-! # Little-endian numbers in byte strings

The fixed-width integers of an on-disk or on-wire format, least significant byte first. `leBytes w n`
writes the `w` low bytes of `n`, `leNat` reads a whole byte string as a number. The two are inverse
to each other on strings of a fixed width (`leNat_leBytes`, `leBytes_leNat`), which is what makes a
fixed-width field sensitive to every one of its bytes (`leNat_set_ne`). -/

namespace Codec

abbrev Bytes := List UInt8

/-- The `w` low bytes of `n`, least significant first. -/
def leBytes : Nat → Nat → Bytes
  | 0, _ => []
  | w + 1, n => UInt8.ofNat n :: leBytes w (n / 256)

/-- The number a byte string spells, least significant byte first. -/
def leNat : Bytes → Nat
  | [] => 0
  | b :: bs => b.toNat + 256 * leNat bs

@[simp] theorem length_leBytes (w n : Nat) : (leBytes w n).length = w := by
  induction w generalizing n with
  | zero => rfl
  | succ w ih => simp only [leBytes, List.length_cons, ih]

/-- A number that does not fit its field is cut to its low bytes. -/
theorem leNat_leBytes_mod (w n : Nat) : leNat (leBytes w n) = n % 256 ^ w := by
  induction w generalizing n with
  | zero => rw [Nat.pow_zero, Nat.mod_one]; rfl
  | succ w ih =>
      rw [leBytes, leNat, ih, UInt8.toNat_ofNat']
      show n % 256 + 256 * (n / 256 % 256 ^ w) = n % 256 ^ (w + 1)
      rw [Nat.pow_succ', Nat.mod_mul]

theorem leNat_leBytes {w n : Nat} (h : n < 256 ^ w) : leNat (leBytes w n) = n := by
  rw [leNat_leBytes_mod, Nat.mod_eq_of_lt h]

theorem leNat_lt (bs : Bytes) : leNat bs < 256 ^ bs.length := by
  induction bs with
  | nil => simp [leNat]
  | cons b bs ih =>
      have hb : b.toNat < 256 := b.toNat_lt
      rw [leNat, List.length_cons, Nat.pow_succ]
      omega

theorem leBytes_leNat (bs : Bytes) : leBytes bs.length (leNat bs) = bs := by
  induction bs with
  | nil => rfl
  | cons b bs ih =>
      have hb : b.toNat < 256 := b.toNat_lt
      have hlow : UInt8.ofNat (b.toNat + 256 * leNat bs) = b := by
        apply UInt8.toNat_inj.mp
        rw [UInt8.toNat_ofNat']
        omega
      have hhigh : (b.toNat + 256 * leNat bs) / 256 = leNat bs := by omega
      rw [List.length_cons, leNat, leBytes, hlow, hhigh, ih]

/-- Byte strings of one width that spell the same number are the same. -/
theorem leNat_inj {as bs : Bytes} (hlen : as.length = bs.length) (h : leNat as = leNat bs) :
    as = bs := by
  rw [← leBytes_leNat as, ← leBytes_leNat bs, hlen, h]

/-- **Every byte counts**: another byte at one place of the field spells another number. -/
theorem leNat_set_ne {bs : Bytes} {p : Nat} {b : UInt8} (hne : bs[p]? ≠ some b)
    (hp : p < bs.length) : leNat (bs.set p b) ≠ leNat bs := by
  intro h
  apply hne
  have hset : bs.set p b = bs := leNat_inj (by simp) h
  rw [← hset, List.getElem?_set_self hp]

end Codec
