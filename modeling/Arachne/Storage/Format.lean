import Arachne.Storage.Crc32c

/-! # WAL record format

Each record on disk is `[u32 len][u32 crc32c][u8 type][payload]`, all numbers little-endian; `len`
counts the type byte and the payload, the checksum covers both. This module is the codec of a single
record: framing (`encodeRecord`, `decodeRecord`), the two payload kinds, and the round trip.

`Record` is what the rest of the development reasons about: a log entry or a hard state.
`Record.encode` is the byte string `append_record` writes for it. -/

namespace Arachne.Storage

open Codec

/-- Maximum size (in bytes) of a single record's body (`type` + `payload`): 64 MiB. -/
def maxRecordBytes : Nat := 64 * 1024 * 1024

/-- The kind of a WAL record. -/
inductive RecordType where
  | entry
  | hardState
  | metaRecord
  deriving DecidableEq, Repr

/-- Errors that can occur when decoding a WAL record. -/
inductive DecodeError where
  | tooShort
  | badLength
  | checksumMismatch (expected actual : BitVec 32)
  | unknownRecordType (byte : UInt8)
  | unsupportedRecordType (recordType : RecordType)
  | trailingBytes
  deriving DecidableEq, Repr

/-- The `Display` text of a decode error. -/
def DecodeError.display : DecodeError → String
  | .tooShort => "buffer too short for a complete record"
  | .badLength => "record length field is implausible"
  | .checksumMismatch expected actual =>
      "checksum mismatch: expected 0x" ++ expected.toHex ++ ", got 0x" ++ actual.toHex
  | .unknownRecordType byte => "unknown record type byte: 0x" ++ byte.toBitVec.toHex
  | .unsupportedRecordType .entry => "record type Entry is not yet supported for decoding"
  | .unsupportedRecordType .hardState => "record type HardState is not yet supported for decoding"
  | .unsupportedRecordType .metaRecord => "record type Meta is not yet supported for decoding"
  | .trailingBytes => "trailing bytes after record do not form a valid record"

/-- `u8::from(RecordType)`. -/
def RecordType.toByte : RecordType → UInt8
  | .entry => 0x01
  | .hardState => 0x02
  | .metaRecord => 0x03

/-- `RecordType::try_from(u8)`. -/
def RecordType.tryFrom (value : UInt8) : Except DecodeError RecordType :=
  if value = 0x01 then .ok .entry
  else if value = 0x02 then .ok .hardState
  else if value = 0x03 then .ok .metaRecord
  else .error (.unknownRecordType value)

/-! ## Framing -/

/-- Encode a record from its type and payload bytes. The length field is a `u32`: `leBytes 4` keeps
the low four bytes, as the cast does. -/
def encodeRecord (recordType : RecordType) (payload : Bytes) : Bytes :=
  let body := recordType.toByte :: payload
  leBytes 4 (1 + payload.length) ++ leBytes 4 (crc32c body).toNat ++ body

/-- Decode a single record from a buffer that must hold exactly one. -/
def decodeRecord (buf : Bytes) : Except DecodeError (RecordType × Bytes) :=
  if buf.length < 8 then .error .tooShort
  else
    let len := leNat (buf.take 4)
    let storedCrc := BitVec.ofNat 32 (leNat ((buf.drop 4).take 4))
    if buf.length ≠ 8 + len then .error .badLength
    else if len > maxRecordBytes then .error .badLength
    else if len < 1 then .error .tooShort
    else
      let body := buf.drop 8
      let actualCrc := crc32c body
      if actualCrc ≠ storedCrc then .error (.checksumMismatch storedCrc actualCrc)
      else
        match RecordType.tryFrom (body.getD 0 0) with
        | .error e => .error e
        | .ok .metaRecord => .error (.unsupportedRecordType .metaRecord)
        | .ok recordType => .ok (recordType, body.drop 1)

/-! ## Payloads -/

/-- `x.to_le_bytes()` of a `u64`. -/
def leU64 (x : UInt64) : Bytes := leBytes 8 x.toNat

/-- Read a little-endian `u64` from `buf` at the given offset. -/
def le64At (buf : Bytes) (offset : Nat) : Except DecodeError UInt64 :=
  if buf.length < offset + 8 then .error .tooShort
  else .ok (UInt64.ofNat (leNat ((buf.drop offset).take 8)))

/-- Encode a log entry payload: `[u64 index][u64 term][u8 entry_type][data...]`. -/
def encodeEntry (index term : UInt64) (entryType : UInt8) (data : Bytes) : Bytes :=
  leU64 index ++ leU64 term ++ entryType :: data

/-- Decode a log entry payload. -/
def decodeEntry (payload : Bytes) : Except DecodeError (UInt64 × UInt64 × UInt8 × Bytes) :=
  if payload.length < 17 then .error .tooShort
  else do
    let index ← le64At payload 0
    let term ← le64At payload 8
    return (index, term, payload.getD 16 0, payload.drop 17)

/-- The vote part of a hard-state payload: `[u8 has_vote][u64 vote]`. -/
def encodeVote : Option UInt64 → Bytes
  | some v => 1 :: leU64 v
  | none => 0 :: leU64 0

/-- Encode a hard-state payload: `[u64 term][u8 has_vote][u64 vote][u64 commit]`. -/
def encodeHardState (term : UInt64) (vote : Option UInt64) (commit : UInt64) : Bytes :=
  leU64 term ++ encodeVote vote ++ leU64 commit

/-- Decode a hard-state payload. -/
def decodeHardState (payload : Bytes) : Except DecodeError (UInt64 × Option UInt64 × UInt64) :=
  if payload.length < 25 then .error .tooShort
  else do
    let term ← le64At payload 0
    let vote ← if payload.getD 8 0 = 1 then (do return some (← le64At payload 9)) else pure none
    let commit ← le64At payload 17
    return (term, vote, commit)

/-- `entry_type_to_seam`: unknown bytes read as a normal entry. -/
def entryTypeToSeam (ety : UInt8) : EntryType :=
  if ety = 0 then .entry
  else if ety = 1 then .confChange
  else if ety = 2 then .confChangeV2
  else .entry

/-- `seam_entry_type_to_u8`. -/
def seamEntryTypeToU8 : EntryType → UInt8
  | .entry => 0
  | .confChange => 1
  | .confChangeV2 => 2

/-! ## Records -/

/-- What a record of the WAL says. -/
inductive Record where
  | entry (e : LogEntry)
  | hardState (hs : HardState)
  deriving DecidableEq, Repr

/-- The payload of an entry record. -/
def LogEntry.payload (e : LogEntry) : Bytes :=
  encodeEntry e.index e.term (seamEntryTypeToU8 e.entryType) e.data

/-- The bytes `append_record` writes. -/
def Record.encode : Record → Bytes
  | .entry e => encodeRecord .entry e.payload
  | .hardState hs => encodeRecord .hardState (encodeHardState hs.term hs.vote hs.commit)

/-- The size limit `append` enforces on an entry: header, type byte and payload. -/
def LogEntry.Fits (e : LogEntry) : Prop := 8 + 1 + e.payload.length ≤ maxRecordBytes

instance (e : LogEntry) : Decidable e.Fits := inferInstanceAs (Decidable (_ ≤ _))

/-- A record the store can have written. -/
def Record.Fits : Record → Prop
  | .entry e => e.Fits
  | .hardState _ => True

/-! ## Round trips -/

@[simp] theorem length_leU64 (x : UInt64) : (leU64 x).length = 8 := length_leBytes 8 _

theorem ofNat_leNat_leU64 (x : UInt64) : UInt64.ofNat (leNat (leU64 x)) = x := by
  have hlt : x.toNat < 256 ^ 8 := x.toNat_lt
  rw [leU64, leNat_leBytes hlt, UInt64.ofNat_toNat]

/-- Reading a `u64` where one was written. -/
theorem le64At_append (pre : Bytes) (x : UInt64) (post : Bytes) (offset : Nat)
    (h : offset = pre.length) : le64At (pre ++ (leU64 x ++ post)) offset = .ok x := by
  subst h
  have hlen : ¬ (pre ++ (leU64 x ++ post)).length < pre.length + 8 := by
    simp only [List.length_append, length_leU64]; omega
  have hread : ((pre ++ (leU64 x ++ post)).drop pre.length).take 8 = leU64 x := by
    rw [List.drop_left', List.take_left'] <;> simp
  rw [le64At, if_neg hlen, hread, ofNat_leNat_leU64]

theorem entryTypeToSeam_toU8 (t : EntryType) : entryTypeToSeam (seamEntryTypeToU8 t) = t := by
  cases t <;> rfl

theorem decodeEntry_encodeEntry (index term : UInt64) (entryType : UInt8) (data : Bytes) :
    decodeEntry (encodeEntry index term entryType data) = .ok (index, term, entryType, data) := by
  have hindex : le64At (encodeEntry index term entryType data) 0 = .ok index := by
    rw [encodeEntry, List.append_assoc]
    exact le64At_append [] index _ 0 rfl
  have hterm : le64At (encodeEntry index term entryType data) 8 = .ok term := by
    rw [encodeEntry, List.append_assoc]
    exact le64At_append _ term _ 8 (by simp)
  have hlen : ¬ (encodeEntry index term entryType data).length < 17 := by
    simp only [encodeEntry, List.length_append, length_leU64, List.length_cons]; omega
  have htail : (encodeEntry index term entryType data).drop 16 = entryType :: data :=
    List.drop_left' (by simp)
  have htype : (encodeEntry index term entryType data).getD 16 0 = entryType := by
    rw [List.getD_eq_getElem?_getD, ← Nat.add_zero 16, ← List.getElem?_drop, htail]; rfl
  have hdata : (encodeEntry index term entryType data).drop 17 = data := by
    show (encodeEntry index term entryType data).drop (16 + 1) = data
    rw [← List.drop_drop, htail]; rfl
  rw [decodeEntry, if_neg hlen, hindex, hterm, htype, hdata]
  rfl

@[simp] theorem length_encodeVote (vote : Option UInt64) : (encodeVote vote).length = 9 := by
  cases vote <;> simp [encodeVote]

@[simp] theorem length_encodeHardState (term : UInt64) (vote : Option UInt64) (commit : UInt64) :
    (encodeHardState term vote commit).length = 25 := by
  simp [encodeHardState]

theorem decodeHardState_encodeHardState (term : UInt64) (vote : Option UInt64) (commit : UInt64) :
    decodeHardState (encodeHardState term vote commit) = .ok (term, vote, commit) := by
  have hlen : ¬ (encodeHardState term vote commit).length < 25 := by simp
  have hterm : le64At (encodeHardState term vote commit) 0 = .ok term := by
    rw [encodeHardState, List.append_assoc]
    exact le64At_append [] term _ 0 rfl
  have hcommit : le64At (encodeHardState term vote commit) 17 = .ok commit := by
    have h := le64At_append (leU64 term ++ encodeVote vote) commit [] 17 (by simp)
    rwa [List.append_nil] at h
  have hflag : (encodeHardState term vote commit).drop 8 = encodeVote vote ++ leU64 commit := by
    rw [encodeHardState, List.append_assoc]
    exact List.drop_left' (by simp)
  have hget : (encodeHardState term vote commit).getD 8 0 = if vote.isSome then 1 else 0 := by
    rw [List.getD_eq_getElem?_getD, ← Nat.add_zero 8, ← List.getElem?_drop, hflag]
    cases vote <;> rfl
  rw [decodeHardState, if_neg hlen, hterm, hcommit, hget]
  cases vote with
  | none => rfl
  | some v =>
      have hvote : le64At (encodeHardState term (some v) commit) 9 = .ok v := by
        have h := le64At_append (leU64 term ++ [1]) v (leU64 commit) 9 (by simp)
        simpa [encodeHardState, encodeVote] using h
      rw [hvote]
      rfl

/-- The body length a record's `len` field states. -/
theorem length_encodeRecord (recordType : RecordType) (payload : Bytes) :
    (encodeRecord recordType payload).length = 8 + (1 + payload.length) := by
  simp only [encodeRecord, List.length_append, length_leBytes, List.length_cons]; omega

theorem leNat_take_encodeRecord (recordType : RecordType) (payload : Bytes)
    (h : 1 + payload.length ≤ maxRecordBytes) (rest : Bytes) :
    leNat ((encodeRecord recordType payload ++ rest).take 4) = 1 + payload.length := by
  have hlt : 1 + payload.length < 256 ^ 4 := by
    unfold maxRecordBytes at h; omega
  rw [encodeRecord, List.append_assoc, List.append_assoc, List.take_left' (by simp),
    leNat_leBytes hlt]

theorem decodeRecord_encodeRecord {recordType : RecordType} {payload : Bytes}
    (h : 1 + payload.length ≤ maxRecordBytes) (hmeta : recordType ≠ .metaRecord) :
    decodeRecord (encodeRecord recordType payload) = .ok (recordType, payload) := by
  have hlen := length_encodeRecord recordType payload
  have hfield : leNat ((encodeRecord recordType payload).take 4) = 1 + payload.length := by
    simpa using leNat_take_encodeRecord recordType payload h []
  have hcrc : BitVec.ofNat 32 (leNat (((encodeRecord recordType payload).drop 4).take 4)) =
      crc32c (recordType.toByte :: payload) := by
    rw [encodeRecord, List.append_assoc, List.drop_left' (by simp), List.take_left' (by simp),
      leNat_leBytes (BitVec.isLt _), BitVec.ofNat_toNat, BitVec.setWidth_eq]
  have hbody : (encodeRecord recordType payload).drop 8 = recordType.toByte :: payload :=
    List.drop_left' (by simp)
  have h8 : ¬ 8 + (1 + payload.length) < 8 := by omega
  have hmax : ¬ 1 + payload.length > maxRecordBytes := by omega
  have hone : ¬ 1 + payload.length < 1 := by omega
  rw [decodeRecord, hlen, if_neg h8]
  simp only [hfield, hcrc, hbody, ne_eq, not_true_eq_false, if_false, hmax, hone]
  cases recordType with
  | entry => rfl
  | hardState => rfl
  | metaRecord => exact absurd rfl hmeta

theorem decodeEntry_payload (e : LogEntry) :
    decodeEntry e.payload = .ok (e.index, e.term, seamEntryTypeToU8 e.entryType, e.data) :=
  decodeEntry_encodeEntry ..

/-- Every record the store writes is framed within the size limit. -/
theorem encode_eq {r : Record} (h : r.Fits) : ∃ recordType payload, recordType ≠ .metaRecord ∧
    r.encode = encodeRecord recordType payload ∧ 1 + payload.length ≤ maxRecordBytes := by
  cases r with
  | entry e =>
      refine ⟨.entry, e.payload, by simp, rfl, ?_⟩
      have h' : 8 + 1 + e.payload.length ≤ maxRecordBytes := h
      omega
  | hardState hs =>
      refine ⟨.hardState, _, by simp, rfl, ?_⟩
      rw [length_encodeHardState]
      decide

theorem decodeRecord_entry {e : LogEntry} (h : e.Fits) :
    decodeRecord (Record.entry e).encode = .ok (.entry, e.payload) := by
  have h' : 8 + 1 + e.payload.length ≤ maxRecordBytes := h
  exact decodeRecord_encodeRecord (by omega) (by simp)

theorem decodeRecord_hardState (hs : HardState) : decodeRecord (Record.hardState hs).encode =
    .ok (.hardState, encodeHardState hs.term hs.vote hs.commit) := by
  refine decodeRecord_encodeRecord ?_ (by simp)
  rw [length_encodeHardState]
  decide

end Arachne.Storage
