import Mathlib.Data.List.Induction
import Mathlib.Tactic.Ring

/-! # Decimal numerals

Zero-padded decimals as they are formatted, and the digit loop of an integer parser, which gives up at a character that is
not a digit and when the value leaves the type. Digit strings of one length are determined by their value
(`ofDigitChars_inj`), so at a fixed width the two are inverse to each other: `parseDigits_zeroPadded` and
`zeroPadded_of_parseDigits`.

An integer parser usually takes a sign as well (`parseUnsigned`), and then a number has more than one spelling at some
widths. Without a plus sign it is the digit loop (`parseUnsigned_eq_parseDigits`). -/

namespace Codec.Decimal

/-- `{:0width}`: the digits of `n`, with zeros in front up to the given width. -/
def zeroPadded (width n : Nat) : List Char := (Nat.toDigits 10 n).leftpad width '0'

/-- One digit more. -/
def pushDigit (limit value : Nat) (c : Char) : Option Nat :=
  if c.isDigit ∧ 10 * value + (c.toNat - '0'.toNat) < limit then some (10 * value + (c.toNat - '0'.toNat)) else none

/-- The digit loop: every value on the way stays below `limit`. -/
def parseDigits (limit : Nat) (cs : List Char) : Option Nat := cs.foldlM (pushDigit limit) 0

/-- A number without a minus sign, as Rust's unsigned types are parsed: at least one digit, after an optional `+`. -/
def parseUnsigned (limit : Nat) : List Char → Option Nat
  | [] => none
  | ['+'] => none
  | '+' :: cs => parseDigits limit cs
  | cs => parseDigits limit cs

/-! ## Values of digit strings -/

theorem ofDigitChars_snoc (cs : List Char) (c : Char) :
    Nat.ofDigitChars 10 (cs ++ [c]) 0 = 10 * Nat.ofDigitChars 10 cs 0 + (c.toNat - '0'.toNat) := by
  rw [Nat.ofDigitChars_append, Nat.ofDigitChars_cons, Nat.ofDigitChars_nil]

theorem le_ofDigitChars (cs : List Char) (value : Nat) : value ≤ Nat.ofDigitChars 10 cs value := by
  rw [Nat.ofDigitChars_eq_ofDigitChars_zero]
  have hpow : 1 ≤ 10 ^ cs.length := Nat.one_le_pow _ _ (by decide)
  have hmul := Nat.mul_le_mul_right value hpow
  omega

/-- **A digit string is determined by its length and its value.** -/
theorem ofDigitChars_inj {as bs : List Char} (hlen : as.length = bs.length) (has : ∀ c ∈ as, c.isDigit)
    (hbs : ∀ c ∈ bs, c.isDigit) (h : Nat.ofDigitChars 10 as 0 = Nat.ofDigitChars 10 bs 0) : as = bs := by
  induction as using List.reverseRecOn generalizing bs with
  | nil => exact (List.length_eq_zero_iff.mp hlen.symm).symm
  | append_singleton as a ih =>
      cases bs using List.reverseRecOn with
      | nil => simp at hlen
      | append_singleton bs b =>
          rw [List.forall_mem_append, List.forall_mem_singleton] at has hbs
          rw [ofDigitChars_snoc, ofDigitChars_snoc] at h
          -- the last digits are the values modulo ten
          have ha := Char.isDigit_iff_toNat.mp has.2
          have hb := Char.isDigit_iff_toNat.mp hbs.2
          simp only [Char.reduceToNat] at ha hb h
          have hlast : a = b := Char.toNat_inj.mp (by omega)
          have hlen : as.length = bs.length := by simpa using hlen
          rw [ih hlen has.1 hbs.1 (by omega), hlast]

/-! ## The digit loop -/

theorem foldlM_pushDigit_eq_some {limit value : Nat} (hvalue : value < limit) {cs : List Char} {n : Nat} :
    cs.foldlM (pushDigit limit) value = some n ↔
      (∀ c ∈ cs, c.isDigit) ∧ Nat.ofDigitChars 10 cs value = n ∧ n < limit := by
  induction cs generalizing value with
  | nil =>
      simp only [List.foldlM_nil, List.not_mem_nil, false_implies, implies_true, true_and, Nat.ofDigitChars_nil]
      constructor
      · intro h
        obtain rfl := Option.some.inj h
        exact ⟨rfl, hvalue⟩
      · rintro ⟨rfl, -⟩
        rfl
  | cons c cs ih =>
      rw [List.foldlM_cons, List.forall_mem_cons, Nat.ofDigitChars_cons, pushDigit]
      constructor
      · intro h
        obtain ⟨next, hnext, hrest⟩ := Option.bind_eq_some_iff.mp h
        obtain ⟨⟨hdigit, hlt⟩, heq⟩ := Option.ite_none_right_eq_some.mp hnext
        obtain rfl := Option.some.inj heq
        obtain ⟨hdigits, hrest⟩ := (ih hlt).mp hrest
        exact ⟨⟨hdigit, hdigits⟩, hrest⟩
      · rintro ⟨⟨hdigit, hdigits⟩, hval, hn⟩
        -- the value only grows, so it is in range here if it is at the end
        have hlt : 10 * value + (c.toNat - '0'.toNat) < limit :=
          Nat.lt_of_le_of_lt (hval ▸ le_ofDigitChars cs _) hn
        rw [if_pos ⟨hdigit, hlt⟩]
        exact (ih hlt).mpr ⟨hdigits, hval, hn⟩

theorem parseDigits_eq_some {limit : Nat} (hlimit : 0 < limit) {cs : List Char} {n : Nat} :
    parseDigits limit cs = some n ↔ (∀ c ∈ cs, c.isDigit) ∧ Nat.ofDigitChars 10 cs 0 = n ∧ n < limit :=
  foldlM_pushDigit_eq_some hlimit

/-! ## Padded numerals -/

theorem isDigit_zeroPadded (width n : Nat) : ∀ c ∈ zeroPadded width n, c.isDigit := by
  intro c hc
  rcases List.mem_append.mp hc with hc | hc
  · rw [(List.mem_replicate.mp hc).2]
    rfl
  · exact Nat.isDigit_of_mem_toDigits (by decide) (by decide) hc

theorem ofDigitChars_zeroPadded (width n : Nat) : Nat.ofDigitChars 10 (zeroPadded width n) 0 = n := by
  rw [zeroPadded, List.leftpad, Nat.ofDigitChars_append, Nat.ofDigitChars_replicate_zero, Nat.mul_zero,
    Nat.ofDigitChars_ten_toDigits]

theorem length_zeroPadded {width n : Nat} (hwidth : 0 < width) (h : n < 10 ^ width) : (zeroPadded width n).length = width := by
  rw [zeroPadded, List.length_leftpad]
  exact Nat.max_eq_left ((Nat.length_toDigits_le_iff (by decide) hwidth).mpr h)

theorem zeroPadded_ne_nil (width n : Nat) : zeroPadded width n ≠ [] := by
  intro h
  have hdigits : Nat.toDigits 10 n = [] := (List.append_eq_nil_iff.mp h).2
  exact Nat.ne_of_gt Nat.length_toDigits_pos (List.length_eq_zero_iff.mpr hdigits)

theorem parseDigits_zeroPadded {limit n : Nat} (width : Nat) (h : n < limit) :
    parseDigits limit (zeroPadded width n) = some n :=
  (parseDigits_eq_some (Nat.zero_lt_of_lt h)).mpr ⟨isDigit_zeroPadded width n, ofDigitChars_zeroPadded width n, h⟩

/-- Any digit string of a width that holds all the values is the padded numeral of its value. -/
theorem zeroPadded_of_parseDigits {limit width n : Nat} {cs : List Char} (hwidth : 0 < width) (hpos : 0 < limit)
    (hlimit : limit ≤ 10 ^ width) (hlen : cs.length = width) (h : parseDigits limit cs = some n) :
    cs = zeroPadded width n := by
  obtain ⟨hdigits, hval, hn⟩ := (parseDigits_eq_some hpos).mp h
  refine ofDigitChars_inj ?_ hdigits (isDigit_zeroPadded width n) ?_
  · rw [hlen, length_zeroPadded hwidth (Nat.lt_of_lt_of_le hn hlimit)]
  · rw [hval, ofDigitChars_zeroPadded]

/-! ## Signs -/

theorem parseUnsigned_eq_parseDigits {limit : Nat} {cs : List Char} (hne : cs ≠ []) (hplain : '+' ∉ cs) :
    parseUnsigned limit cs = parseDigits limit cs := by
  unfold parseUnsigned
  split
  · exact absurd rfl hne
  · exact absurd (List.mem_singleton_self '+') hplain
  · exact absurd List.mem_cons_self hplain
  · rfl

end Codec.Decimal
