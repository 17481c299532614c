import Arachne.Codec.LittleEndian

/-! # Reflected cyclic redundancy checks

A CRC register of width `w` over a polynomial `p`, in the reflected (least significant bit first)
form. `shiftBit` is the division step for one bit, `feedByte` feeds one byte by eight such steps,
`feed` a byte string. The register is linear in exclusive or (`shiftBits_xor`), so eight steps from
`c ^^^ b` split into a table word for the low byte and the rest of the register moved down
(`shiftBits_eight`): the step every table-driven implementation makes. By the same token feeding a byte is feeding its
bits one at a time (`feed_eq_feedBit`).

When the top bit of the polynomial is set, a step loses nothing (`shiftBit_injective`). Feeding is
then injective in the register and in the byte, so two strings that differ in a single byte always
leave different registers (`feed_append_cons_ne`).

A string no longer than the register is fed at once, as the number it spells (`feed_eq_shiftBits`). So strings
that differ within a stretch of that length leave different registers too (`feed_burst_ne`), and a checksum at the
end of a string is right exactly if feeding the whole string leaves a fixed register (`feed_trailer`): damage across
the seam between a string and its checksum is damage to one string. -/

namespace Codec.Crc

variable {w : Nat}

/-- One division step: shift out the low bit, subtract the polynomial when it was set. -/
def shiftBit (p c : BitVec w) : BitVec w :=
  if c.getLsbD 0 then (c >>> 1) ^^^ p else c >>> 1

/-- `n` division steps. -/
def shiftBits (p : BitVec w) : Nat → BitVec w → BitVec w
  | 0, c => c
  | n + 1, c => shiftBits p n (shiftBit p c)

/-- Feed one byte, bit by bit. -/
def feedByte (p c : BitVec w) (b : UInt8) : BitVec w :=
  shiftBits p 8 (c ^^^ b.toBitVec.setWidth w)

/-- Feed a byte string. -/
def feed (p : BitVec w) (c : BitVec w) (bs : List UInt8) : BitVec w := bs.foldl (feedByte p) c

/-! ## Linearity -/

theorem shiftBit_xor (p a b : BitVec w) :
    shiftBit p (a ^^^ b) = shiftBit p a ^^^ shiftBit p b := by
  unfold shiftBit
  apply BitVec.eq_of_getLsbD_eq
  intro i _
  rw [BitVec.getLsbD_xor, BitVec.ushiftRight_xor_distrib]
  cases a.getLsbD 0 <;> cases b.getLsbD 0 <;> simp
  · cases a.getLsbD (1 + i) <;> cases p.getLsbD i <;> simp
  · cases a.getLsbD (1 + i) <;> cases b.getLsbD (1 + i) <;> cases p.getLsbD i <;> simp

theorem shiftBits_xor (p : BitVec w) (n : Nat) (a b : BitVec w) :
    shiftBits p n (a ^^^ b) = shiftBits p n a ^^^ shiftBits p n b := by
  induction n generalizing a b with
  | zero => rfl
  | succ n ih => rw [shiftBits, shiftBits, shiftBits, shiftBit_xor, ih]

/-- A register whose low `n` bits are clear only moves down through `n` steps. -/
theorem shiftBits_of_low_clear (p : BitVec w) (n : Nat) (c : BitVec w)
    (h : ∀ i, i < n → c.getLsbD i = false) : shiftBits p n c = c >>> n := by
  induction n generalizing c with
  | zero => simp [shiftBits]
  | succ n ih =>
      have hstep : shiftBit p c = c >>> 1 := by
        rw [shiftBit, h 0 (Nat.succ_pos n)]; rfl
      have hlow : ∀ i, i < n → (c >>> 1).getLsbD i = false := by
        intro i hi
        rw [BitVec.getLsbD_ushiftRight]
        exact h (1 + i) (by omega)
      rw [shiftBits, hstep, ih _ hlow, ← BitVec.shiftRight_add, Nat.add_comm]

/-- **The table step**: eight steps are a word that depends on the low byte only, and the register
moved down by that byte. -/
theorem shiftBits_eight (p c : BitVec w) :
    shiftBits p 8 c = (c >>> 8) ^^^ shiftBits p 8 (c &&& 255#w) := by
  have hbit : ∀ i, (255#w).getLsbD i = (decide (i < w) && decide (i < 8)) := by
    intro i
    rw [BitVec.getLsbD_ofNat, show (255 : Nat) = 2 ^ 8 - 1 by rfl, Nat.testBit_two_pow_sub_one]
  have hsplit : c = (c &&& ~~~255#w) ^^^ (c &&& 255#w) := by
    apply BitVec.eq_of_getLsbD_eq
    intro i hi
    simp only [BitVec.getLsbD_xor, BitVec.getLsbD_and, BitVec.getLsbD_not, hi, decide_true,
      Bool.true_and]
    cases c.getLsbD i <;> cases (255#w).getLsbD i <;> rfl
  have hclear : ∀ i, i < 8 → (c &&& ~~~255#w).getLsbD i = false := by
    intro i hi
    simp only [BitVec.getLsbD_and, BitVec.getLsbD_not, hbit, hi, decide_true, Bool.and_true]
    cases c.getLsbD i <;> cases decide (i < w) <;> rfl
  have hmove : (c &&& ~~~255#w) >>> 8 = c >>> 8 := by
    apply BitVec.eq_of_getLsbD_eq
    intro i _
    have h8 : decide (8 + i < 8) = false := by simp
    simp only [BitVec.getLsbD_ushiftRight, BitVec.getLsbD_and, BitVec.getLsbD_not, hbit, h8,
      Bool.and_false, Bool.not_false, Bool.and_true]
    by_cases hw : 8 + i < w
    · simp [hw]
    · simp [hw, BitVec.getLsbD_of_ge c (8 + i) (by omega)]
  calc shiftBits p 8 c
      = shiftBits p 8 ((c &&& ~~~255#w) ^^^ (c &&& 255#w)) := by rw [← hsplit]
    _ = shiftBits p 8 (c &&& ~~~255#w) ^^^ shiftBits p 8 (c &&& 255#w) := shiftBits_xor ..
    _ = (c >>> 8) ^^^ shiftBits p 8 (c &&& 255#w) := by
        rw [shiftBits_of_low_clear p 8 _ hclear, hmove]

/-! ## One bit of the message at a time

The textbook form: the register takes in a message bit and shifts. `shiftBits` folds all the bits of a byte in at the
start instead, which is the same, as the ones that are not yet due only move down. -/

/-- Feed one bit of the message. -/
def feedBit (p c : BitVec w) (bit : Bool) : BitVec w :=
  if c.getLsbD 0 ^^ bit then (c >>> 1) ^^^ p else c >>> 1

/-- The bits of a byte string in the order a reflected register takes them, the lowest bit of each byte first. -/
def messageBits (bs : List UInt8) : List Bool := bs.flatMap fun b => (List.range 8).map b.toBitVec.getLsbD

theorem shiftBit_xor_eq_feedBit (p c x : BitVec w) : shiftBit p (c ^^^ x) = feedBit p c (x.getLsbD 0) ^^^ (x >>> 1) := by
  rw [shiftBit, feedBit, BitVec.getLsbD_xor, BitVec.ushiftRight_xor_distrib]
  split
  · rw [BitVec.xor_assoc, BitVec.xor_assoc, BitVec.xor_comm p]
  · rfl

/-- Bits that were folded in at the start are fed one by one, and the rest has moved down. -/
theorem shiftBits_xor_eq_feedBit (p : BitVec w) (n : Nat) (c x : BitVec w) :
    shiftBits p n (c ^^^ x) = ((List.range n).map x.getLsbD).foldl (feedBit p) c ^^^ (x >>> n) := by
  induction n generalizing c x with
  | zero => simp [shiftBits]
  | succ n ih =>
      have hlater : x.getLsbD ∘ Nat.succ = (x >>> 1).getLsbD := by
        funext i
        rw [BitVec.getLsbD_ushiftRight, Nat.add_comm]
        rfl
      rw [shiftBits, shiftBit_xor_eq_feedBit, ih, List.range_succ_eq_map, List.map_cons, List.map_map, hlater,
        List.foldl_cons, ← BitVec.shiftRight_add, Nat.add_comm]

theorem feedByte_eq_feedBit (hw : 8 ≤ w) (p c : BitVec w) (b : UInt8) :
    feedByte p c b = ((List.range 8).map b.toBitVec.getLsbD).foldl (feedBit p) c := by
  have hbits : (List.range 8).map (b.toBitVec.setWidth w).getLsbD = (List.range 8).map b.toBitVec.getLsbD := by
    refine List.map_congr_left fun i hi => ?_
    have hi : i < w := Nat.lt_of_lt_of_le (List.mem_range.mp hi) hw
    simp [hi]
  have hgone : (b.toBitVec.setWidth w) >>> 8 = 0#w := by
    apply BitVec.eq_of_getLsbD_eq
    intro i _
    simp [BitVec.getLsbD_ushiftRight, BitVec.getLsbD_setWidth]
  rw [feedByte, shiftBits_xor_eq_feedBit, hbits, hgone, BitVec.xor_zero]

/-- **Feeding bytes is feeding their bits.** -/
theorem feed_eq_feedBit (hw : 8 ≤ w) (p c : BitVec w) (bs : List UInt8) :
    feed p c bs = (messageBits bs).foldl (feedBit p) c := by
  induction bs generalizing c with
  | nil => rfl
  | cons b bs ih =>
      rw [messageBits, List.flatMap_cons, List.foldl_append, ← feedByte_eq_feedBit hw]
      exact ih _

/-! ## Nothing is lost -/

/-- The top bit after a step is the bit that was shifted out. -/
theorem shiftBit_top {p : BitVec w} (hw : 0 < w) (hp : p.getLsbD (w - 1) = true) (c : BitVec w) :
    (shiftBit p c).getLsbD (w - 1) = c.getLsbD 0 := by
  have htop : (c >>> 1).getLsbD (w - 1) = false := by
    rw [BitVec.getLsbD_ushiftRight]
    exact BitVec.getLsbD_of_ge c _ (by omega)
  unfold shiftBit
  cases hc : c.getLsbD 0
  · simpa using htop
  · rw [if_pos rfl, BitVec.getLsbD_xor, htop, hp]; rfl

theorem shiftBit_injective {p : BitVec w} (hp : p.getLsbD (w - 1) = true) :
    Function.Injective (shiftBit p) := by
  intro c d h
  rcases Nat.eq_zero_or_pos w with rfl | hw
  · exact BitVec.eq_of_zero_length rfl
  have hlow : c.getLsbD 0 = d.getLsbD 0 := by
    rw [← shiftBit_top hw hp c, ← shiftBit_top hw hp d, h]
  have hhigh : c >>> 1 = d >>> 1 := by
    unfold shiftBit at h
    rw [hlow] at h
    cases hd : d.getLsbD 0 with
    | false => simpa [hd] using h
    | true =>
        simp only [hd, if_true] at h
        exact (BitVec.xor_left_inj p).mp h
  apply BitVec.eq_of_getLsbD_eq
  intro i _
  cases i with
  | zero => exact hlow
  | succ i =>
      have hi := congrArg (fun x : BitVec w => x.getLsbD i) hhigh
      simpa [BitVec.getLsbD_ushiftRight, Nat.add_comm] using hi

theorem shiftBits_injective {p : BitVec w} (hp : p.getLsbD (w - 1) = true) (n : Nat) :
    Function.Injective (shiftBits p n) := by
  induction n with
  | zero => exact fun _ _ h => h
  | succ n ih => exact fun _ _ h => shiftBit_injective hp (ih h)

/-- Feeding the same bytes keeps different registers apart. -/
theorem feed_injective {p : BitVec w} (hp : p.getLsbD (w - 1) = true) (bs : List UInt8) :
    Function.Injective (fun c => feed p c bs) := by
  induction bs with
  | nil => exact fun _ _ h => h
  | cons b bs ih =>
      intro c d h
      have hbyte : feedByte p c b = feedByte p d b := ih h
      exact (BitVec.xor_left_inj _).mp (shiftBits_injective hp 8 hbyte)

theorem feedByte_ne {p : BitVec w} (hw : 8 ≤ w) (hp : p.getLsbD (w - 1) = true) (c : BitVec w)
    {a b : UInt8} (hab : a ≠ b) : feedByte p c a ≠ feedByte p c b := by
  intro h
  have hset : a.toBitVec.setWidth w = b.toBitVec.setWidth w :=
    (BitVec.xor_right_inj _).mp (shiftBits_injective hp 8 h)
  apply hab
  have hnat := congrArg BitVec.toNat hset
  have hpow : 2 ^ 8 ≤ 2 ^ w := Nat.pow_le_pow_right (by omega) hw
  have ha : a.toNat < 2 ^ w := Nat.lt_of_lt_of_le a.toNat_lt hpow
  have hb : b.toNat < 2 ^ w := Nat.lt_of_lt_of_le b.toNat_lt hpow
  simp only [BitVec.toNat_setWidth, UInt8.toNat_toBitVec, Nat.mod_eq_of_lt ha,
    Nat.mod_eq_of_lt hb] at hnat
  exact UInt8.toNat_inj.mp hnat

/-- **A single changed byte always shows**: strings that differ in one place leave the register in
different states. -/
theorem feed_append_cons_ne {p : BitVec w} (hw : 8 ≤ w) (hp : p.getLsbD (w - 1) = true)
    (c : BitVec w) (pre post : List UInt8) {a b : UInt8} (hab : a ≠ b) :
    feed p c (pre ++ a :: post) ≠ feed p c (pre ++ b :: post) := by
  intro h
  simp only [feed, List.foldl_append, List.foldl_cons] at h
  exact feedByte_ne hw hp _ hab (feed_injective hp post h)

/-! ## Bursts -/

theorem shiftBits_add (p : BitVec w) (m n : Nat) (c : BitVec w) : shiftBits p (m + n) c = shiftBits p n (shiftBits p m c) := by
  induction m generalizing c with
  | zero => rw [Nat.zero_add]; rfl
  | succ m ih => rw [Nat.add_right_comm, shiftBits, ih]; rfl

/-- The register a byte string spells, byte by byte. -/
theorem ofNat_leNat_cons (b : UInt8) (bs : List UInt8) :
    BitVec.ofNat w (leNat (b :: bs)) = b.toBitVec.setWidth w ^^^ (BitVec.ofNat w (leNat bs) <<< 8) := by
  apply BitVec.eq_of_getLsbD_eq
  intro i hi
  have hb : b.toNat < 2 ^ 8 := b.toNat_lt
  rw [leNat, Nat.add_comm, BitVec.getLsbD_ofNat, show (256 : Nat) = 2 ^ 8 by rfl, Nat.testBit_two_pow_mul_add _ hb,
    BitVec.getLsbD_xor, BitVec.getLsbD_setWidth, BitVec.getLsbD_shiftLeft, BitVec.getLsbD_ofNat]
  have hlow : b.toBitVec.getLsbD i = b.toNat.testBit i := rfl
  by_cases h8 : i < 8
  · rw [hlow]
    simp only [hi, h8, decide_true, Bool.true_and, Bool.not_true, Bool.false_and, if_true, Bool.and_false,
      Bool.xor_false]
  · have hhigh : b.toNat.testBit i = false :=
      Nat.testBit_lt_two_pow (Nat.lt_of_lt_of_le hb (Nat.pow_le_pow_right (by decide) (Nat.not_lt.mp h8)))
    have hi' : i - 8 < w := Nat.lt_of_le_of_lt (Nat.sub_le _ _) hi
    simp [hi, hi', h8, hlow, hhigh]

/-- A short string is fed as the number it spells. -/
theorem feed_eq_shiftBits (p c : BitVec w) {bs : List UInt8} (h : 8 * bs.length ≤ w) :
    feed p c bs = shiftBits p (8 * bs.length) (c ^^^ BitVec.ofNat w (leNat bs)) := by
  induction bs generalizing c with
  | nil => exact (BitVec.xor_zero).symm
  | cons b bs ih =>
      rw [List.length_cons] at h
      have hlt : leNat bs < 2 ^ (w - 8) :=
        Nat.lt_of_lt_of_le (leNat_lt bs) (by
          rw [show (256 : Nat) = 2 ^ 8 by rfl, ← Nat.pow_mul]
          exact Nat.pow_le_pow_right (by decide) (by omega))
      -- the later bytes only move down while the first one is fed
      have hmove : shiftBits p 8 (BitVec.ofNat w (leNat bs) <<< 8) = BitVec.ofNat w (leNat bs) := by
        rw [shiftBits_of_low_clear]
        · apply BitVec.eq_of_getLsbD_eq
          intro i hi
          rw [BitVec.getLsbD_ushiftRight, BitVec.getLsbD_shiftLeft, BitVec.getLsbD_ofNat, BitVec.getLsbD_ofNat,
            Nat.add_sub_cancel_left]
          by_cases hw : 8 + i < w
          · simp [hw, hi]
          · have hhigh : (leNat bs).testBit i = false :=
              Nat.testBit_lt_two_pow (Nat.lt_of_lt_of_le hlt (Nat.pow_le_pow_right (by decide) (by omega)))
            simp [hw, hhigh]
        · intro i hi
          rw [BitVec.getLsbD_shiftLeft]
          simp [hi]
      show feed p (feedByte p c b) bs = _
      rw [ih _ (by omega), ofNat_leNat_cons, List.length_cons, Nat.mul_succ, Nat.add_comm (8 * bs.length) 8, shiftBits_add,
        ← BitVec.xor_assoc, shiftBits_xor p 8, hmove, feedByte]

/-- Short strings of one length leave different registers. -/
theorem feed_ne_of_ne {p : BitVec w} (hp : p.getLsbD (w - 1) = true) (c : BitVec w) {as bs : List UInt8}
    (hlen : as.length = bs.length) (hw : 8 * as.length ≤ w) (hne : as ≠ bs) : feed p c as ≠ feed p c bs := by
  intro h
  rw [feed_eq_shiftBits p c hw, feed_eq_shiftBits p c (hlen ▸ hw), hlen] at h
  have hspell := congrArg BitVec.toNat ((BitVec.xor_right_inj c).mp (shiftBits_injective hp _ h))
  have hbound : ∀ xs : List UInt8, xs.length = as.length → leNat xs < 2 ^ w := by
    intro xs hxs
    refine Nat.lt_of_lt_of_le (leNat_lt xs) ?_
    rw [hxs, show (256 : Nat) = 2 ^ 8 by rfl, ← Nat.pow_mul]
    exact Nat.pow_le_pow_right (by decide) hw
  rw [BitVec.toNat_ofNat, BitVec.toNat_ofNat, Nat.mod_eq_of_lt (hbound as rfl), Nat.mod_eq_of_lt (hbound bs hlen.symm)]
    at hspell
  exact hne (leNat_inj hlen hspell)

/-- `bytes` is `file` with at most `n` consecutive bytes of it changed. -/
def Altered (n : Nat) (file bytes : List UInt8) : Prop :=
  bytes ≠ file ∧ ∃ pre old new post, file = pre ++ old ++ post ∧ bytes = pre ++ new ++ post ∧ new.length = old.length ∧
    old.length ≤ n

/-- **A changed stretch no longer than the register always shows.** -/
theorem feed_burst_ne {p : BitVec w} (hp : p.getLsbD (w - 1) = true) (c : BitVec w) (pre post : List UInt8)
    {as bs : List UInt8} (hlen : as.length = bs.length) (hw : 8 * as.length ≤ w) (hne : as ≠ bs) :
    feed p c (pre ++ as ++ post) ≠ feed p c (pre ++ bs ++ post) := by
  intro h
  simp only [feed, List.foldl_append] at h
  exact feed_ne_of_ne hp _ hlen hw hne (feed_injective hp post h)

theorem Altered.feed_ne {p : BitVec w} (hp : p.getLsbD (w - 1) = true) (c : BitVec w) {n : Nat} {file bytes : List UInt8}
    (h : Altered n file bytes) (hw : 8 * n ≤ w) : feed p c file ≠ feed p c bytes := by
  obtain ⟨hne, pre, old, new, post, rfl, rfl, hlen, hle⟩ := h
  refine feed_burst_ne hp c pre post hlen.symm (by omega) ?_
  rintro rfl
  exact hne rfl

theorem Altered.length_eq {n : Nat} {file bytes : List UInt8} (h : Altered n file bytes) : bytes.length = file.length := by
  obtain ⟨-, pre, old, new, post, rfl, rfl, hlen, -⟩ := h
  simp only [List.length_append, hlen]

theorem Altered.one_byte {file bytes : List UInt8} (h : Altered 1 file bytes) :
    ∃ pre a b post, a ≠ b ∧ file = pre ++ a :: post ∧ bytes = pre ++ b :: post := by
  obtain ⟨hne, pre, old, new, post, rfl, rfl, hlen, hle⟩ := h
  match old, new, hlen, hle with
  | [], [], _, _ => exact absurd rfl hne
  | [a], [b], _, _ =>
      refine ⟨pre, a, b, post, ?_, by simp, by simp⟩
      rintro rfl
      exact hne rfl

/-- **A checksum at the end.** The register behind a string is `mask` away from the number that follows it exactly if
feeding that number too leaves a register that depends on `mask` only. -/
theorem feed_trailer {p : BitVec w} (hp : p.getLsbD (w - 1) = true) (c mask : BitVec w) {body tail : List UInt8}
    (hw : 8 * tail.length = w) :
    feed p c (body ++ tail) = shiftBits p w mask ↔ feed p c body ^^^ mask = BitVec.ofNat w (leNat tail) := by
  have hfeed : feed p c (body ++ tail) = shiftBits p w (feed p c body ^^^ BitVec.ofNat w (leNat tail)) := by
    have hshort := feed_eq_shiftBits p (feed p c body) hw.le
    rw [hw] at hshort
    rw [← hshort, feed, List.foldl_append]
    rfl
  rw [hfeed]
  constructor
  · intro h
    have hmask := shiftBits_injective hp w h
    rw [← hmask, ← BitVec.xor_assoc, BitVec.xor_self, BitVec.zero_xor]
  · intro h
    rw [← h, ← BitVec.xor_assoc, BitVec.xor_self, BitVec.zero_xor]

end Codec.Crc
