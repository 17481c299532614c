import Arachne.Codec.Crc
import Arachne.Storage.Types

/-! # CRC32C (Castagnoli)

The table-driven checksum that frames every record. `crc32c` follows the source: a register of all
ones, one table word per byte, a final exclusive or. `crc32c_eq_feed` says that this is the bitwise
register of `Codec.Crc` over the Castagnoli polynomial; the one fact the recovery proofs need from
it is `crc32c_ne_of_one_byte`. For a file that ends in its own checksum, `crc32c_ne_of_altered` is stronger: no change of
four consecutive bytes goes unnoticed, wherever it lies. -/

namespace Arachne.Storage

open Codec (Bytes leBytes leNat leNat_leBytes length_leBytes)
open Codec.Crc

/-- The reflected CRC32C (Castagnoli) polynomial. -/
def poly : BitVec 32 := 0x82F63B78#32

/-- One entry of the table: the inner loop of `make_table`. -/
def tableEntry (i : Nat) : BitVec 32 :=
  (List.range 8).foldl
    (fun crc _ => if crc &&& 1#32 ≠ 0#32 then (crc >>> 1) ^^^ poly else crc >>> 1)
    (BitVec.ofNat 32 i)

/-- The 256-entry lookup table. -/
def makeTable : List (BitVec 32) := (List.range 256).map tableEntry

/-- The CRC32C checksum of `data`. -/
def crc32c (data : Bytes) : BitVec 32 :=
  let crc := data.foldl
    (fun crc byte =>
      let index := (crc ^^^ byte.toBitVec.setWidth 32) &&& 0xFF#32
      (crc >>> 8) ^^^ makeTable.getD index.toNat 0#32)
    0xFFFFFFFF#32
  crc ^^^ 0xFFFFFFFF#32

/-! ## The table step is the bitwise step -/

theorem low_bit_ne_zero (c : BitVec 32) : (c &&& 1#32 ≠ 0#32) ↔ c.getLsbD 0 = true := by
  rw [BitVec.and_one_eq_setWidth_ofBool_getLsbD]
  cases c.getLsbD 0 <;> decide

theorem tableEntry_eq (i : Nat) : tableEntry i = shiftBits poly 8 (BitVec.ofNat 32 i) := by
  have hstep : ∀ c : BitVec 32,
      (if c &&& 1#32 ≠ 0#32 then (c >>> 1) ^^^ poly else c >>> 1) = shiftBit poly c := by
    intro c
    simp only [low_bit_ne_zero, shiftBit]
  unfold tableEntry
  simp only [hstep]
  rfl

theorem makeTable_getD {i : Nat} (h : i < 256) : makeTable.getD i 0#32 = tableEntry i := by
  unfold makeTable
  rw [List.getD_eq_getElem?_getD, List.getElem?_map, List.getElem?_range h]
  rfl

theorem tableStep_eq_feedByte (c : BitVec 32) (b : UInt8) :
    (c >>> 8) ^^^ makeTable.getD ((c ^^^ b.toBitVec.setWidth 32) &&& 0xFF#32).toNat 0#32 =
      feedByte poly c b := by
  have hlt : ((c ^^^ b.toBitVec.setWidth 32) &&& 0xFF#32).toNat < 256 := by
    rw [BitVec.toNat_and]
    exact Nat.lt_of_le_of_lt Nat.and_le_right (by decide)
  have hbyte : (c ^^^ b.toBitVec.setWidth 32) >>> 8 = c >>> 8 := by
    have hb : (b.toBitVec.setWidth 32) >>> 8 = 0#32 := by
      apply BitVec.eq_of_toNat_eq
      have := b.toNat_lt
      simp only [BitVec.toNat_ushiftRight, BitVec.toNat_setWidth, UInt8.toNat_toBitVec]
      rw [Nat.shiftRight_eq_div_pow]
      simp
      omega
    rw [BitVec.ushiftRight_xor_distrib, hb, BitVec.xor_zero]
  rw [makeTable_getD hlt, tableEntry_eq, BitVec.ofNat_toNat, BitVec.setWidth_eq, feedByte,
    shiftBits_eight poly (c ^^^ b.toBitVec.setWidth 32), hbyte]

/-- **The table computes the real CRC32C**: the bitwise register over the Castagnoli polynomial. -/
theorem crc32c_eq_feed (data : Bytes) :
    crc32c data = feed poly 0xFFFFFFFF#32 data ^^^ 0xFFFFFFFF#32 := by
  unfold crc32c feed
  simp only [tableStep_eq_feedByte]

example : crc32c [0x31, 0x32, 0x33, 0x34, 0x35, 0x36, 0x37, 0x38, 0x39] = 0xE3069283#32 := by
  decide +kernel

/-- **CRC32C, bit by bit.** A register of all ones takes in the bits of the message, each byte from its lowest bit on, and
is inverted at the end. The checksum of a longer string goes on from there. -/
theorem crc32c_bitwise (data more : Bytes) :
    crc32c data = (messageBits data).foldl (feedBit 0x82F63B78#32) (BitVec.allOnes 32) ^^^ BitVec.allOnes 32 ∧
    crc32c (data ++ more) =
      (messageBits more).foldl (feedBit 0x82F63B78#32) (crc32c data ^^^ BitVec.allOnes 32) ^^^ BitVec.allOnes 32 := by
  have hbits : ∀ c bs, feed poly c bs = (messageBits bs).foldl (feedBit 0x82F63B78#32) c := feed_eq_feedBit (by decide) poly
  have hones : 0xFFFFFFFF#32 = BitVec.allOnes 32 := by decide
  refine ⟨by rw [crc32c_eq_feed, hbits, hones], ?_⟩
  -- the register behind `data` is its checksum, inverted again
  rw [crc32c_eq_feed data, hones, BitVec.xor_assoc, BitVec.xor_self, BitVec.xor_zero, ← hbits, crc32c_eq_feed, feed,
    List.foldl_append, hones]
  rfl

/-- A single changed byte always changes the checksum. -/
theorem crc32c_ne_of_one_byte (pre post : Bytes) {a b : UInt8} (hab : a ≠ b) :
    crc32c (pre ++ a :: post) ≠ crc32c (pre ++ b :: post) := by
  rw [crc32c_eq_feed, crc32c_eq_feed]
  intro h
  exact feed_append_cons_ne (by decide) (by decide) _ pre post hab ((BitVec.xor_left_inj _).mp h)

/-! ## Files that end in their checksum -/

/-- A file body with its checksum behind it. -/
def withCrc (body : Bytes) : Bytes := body ++ leBytes 4 (crc32c body).toNat

/-- A stored checksum is right if feeding it too leaves the register every file with a right one leaves. -/
theorem crc32c_eq_stored_iff {body stored : Bytes} (h : stored.length = 4) :
    crc32c body = BitVec.ofNat 32 (leNat stored) ↔
      feed poly 0xFFFFFFFF#32 (body ++ stored) = shiftBits poly 32 0xFFFFFFFF#32 := by
  rw [crc32c_eq_feed, feed_trailer (by decide) _ _ (by rw [h])]

theorem ofNat_leNat_crc (body : Bytes) : BitVec.ofNat 32 (leNat (leBytes 4 (crc32c body).toNat)) = crc32c body := by
  rw [leNat_leBytes (crc32c body).isLt, BitVec.ofNat_toNat, BitVec.setWidth_eq]

/-- **Four altered bytes always show**, also where they straddle the body and its checksum. -/
theorem crc32c_ne_of_altered {body bytes : Bytes} (h : Altered 4 (withCrc body) bytes) :
    crc32c (bytes.take (bytes.length - 4)) ≠ BitVec.ofNat 32 (leNat (bytes.drop (bytes.length - 4))) := by
  have hlen : bytes.length = body.length + 4 := by
    rw [h.length_eq, withCrc, List.length_append, length_leBytes]
  intro hcrc
  have hbytes := (crc32c_eq_stored_iff (by rw [List.length_drop]; omega)).mp hcrc
  rw [List.take_append_drop] at hbytes
  have hfile := (crc32c_eq_stored_iff (length_leBytes 4 _)).mp (ofNat_leNat_crc body).symm
  exact h.feed_ne (by decide) 0xFFFFFFFF#32 (by decide) (hfile.trans hbytes.symm)

end Arachne.Storage
