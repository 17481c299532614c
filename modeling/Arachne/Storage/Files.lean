import Arachne.Codec.Reader
import Arachne.Storage.Invariant

/-! # The files beside the log

META, the membership file and the snapshot files as bytes. The rest of the development keeps their decoded content in
the `Dir`; this module has the three codecs and says why that is enough. What was written is read back
(`decodeSnapshot_encodeSnapshot`, `readMembership_membershipBlob`, `decodeMeta_encodeMeta`), and a file with a short
alteration is rejected instead of being read as something else (`short_alterations_rejected`). The snapshot file, which
also travels between nodes, has exactly one spelling for each snapshot (`snapshotFile_exact`).

The membership file and the snapshot file end in a checksum over all that stands before it, so for them the last claim
is one about checksums. META has its checksum in the header, over the payload only. Its magic number and format version
are protected by being compared: the first by the decoder, the second when the directory is opened. -/

namespace Arachne.Storage

open Codec
open Codec.Crc (Altered)

/-! ## Identifier lists -/

/-- `put_ids`. -/
def putIds (ids : List UInt64) : Bytes := u32Bytes ids.length ++ ids.flatMap u64Bytes

/-- `read_id_list`, and `ids` of the snapshot reader. -/
def readIdList : Reader (List UInt64) := do
  let len ← Reader.u32
  Reader.many Reader.u64 len

theorem reads_putIds {ids : List UInt64} (h : ids.length < 2 ^ 32) : Reader.Reads readIdList (putIds ids) ids :=
  (Reader.Reads.u32 h).bind (Reader.Reads.many fun id _ => Reader.Reads.u64 id)

/-- Member tables whose lengths the files can carry. -/
def ConfState.Fits (confState : ConfState) : Prop :=
  confState.voters.length < 2 ^ 32 ∧ confState.learners.length < 2 ^ 32

/-! ## Snapshot files -/

/-- `SNAPSHOT_MAGIC`. -/
def snapshotMagic : Nat := 0x41524153

inductive SnapshotError where
  | tooShort
  | badMagic
  | badFormatVersion (found : Nat)
  | checksumMismatch (expected actual : BitVec 32)
  | truncated
  deriving DecidableEq, Repr

/-- What stands between the format version and the checksum. -/
def snapshotFields (snapshot : Snapshot) : Bytes :=
  u64Bytes snapshot.metadata.index ++ (u64Bytes snapshot.metadata.term ++ (putIds snapshot.metadata.confState.voters ++
    (putIds snapshot.metadata.confState.learners ++ (leBytes 8 snapshot.data.length ++ snapshot.data))))

def encodeSnapshot (snapshot : Snapshot) : Bytes :=
  withCrc (u32Bytes snapshotMagic ++ (u32Bytes formatVersion.toNat ++ snapshotFields snapshot))

def readSnapshotFields : Reader Snapshot := do
  let index ← Reader.u64
  let term ← Reader.u64
  let voters ← readIdList
  let learners ← readIdList
  let dataLen ← Reader.u64
  let data ← Reader.take dataLen.toNat
  return { metadata := { index, term, confState := { voters, learners } }, data }

def decodeSnapshot (bytes : Bytes) : Except SnapshotError Snapshot :=
  if bytes.length < 4 then .error .tooShort
  else
    let body := bytes.take (bytes.length - 4)
    let expected := BitVec.ofNat 32 (leNat (bytes.drop (bytes.length - 4)))
    let actual := crc32c body
    if expected ≠ actual then .error (.checksumMismatch expected actual)
    else
      match Reader.u32 body with
      | none => .error .truncated
      | some (magic, rest) =>
        if magic ≠ snapshotMagic then .error .badMagic
        else
          match Reader.u32 rest with
          | none => .error .truncated
          | some (version, rest) =>
            if version ≠ formatVersion.toNat then .error (.badFormatVersion version)
            else
              -- trailing bytes after the data mean that the layout is another one
              Reader.parse .truncated (do let snapshot ← readSnapshotFields; Reader.eof; return snapshot) rest

/-! ## The membership file -/

/-- `MEMBERSHIP_MAGIC`. -/
def membershipMagic : Nat := 0x534D5241

/-- `MEMBERSHIP_FORMAT_VERSION`. -/
def membershipFormatVersion : Nat := 1

/-- `MembershipError::Corrupt` with its text; I/O failures are left out. -/
inductive MembershipError where
  | corrupt (detail : String)
  deriving DecidableEq, Repr

def encodeConfState (confChangeIndex : UInt64) (confState : ConfState) : Bytes :=
  u64Bytes confChangeIndex ++ (putIds confState.voters ++ putIds confState.learners)

/-- The bytes `write_membership` puts into the file. -/
def membershipBlob (confChangeIndex : UInt64) (confState : ConfState) : Bytes :=
  withCrc (u32Bytes membershipMagic ++ (u32Bytes membershipFormatVersion ++ encodeConfState confChangeIndex confState))

def readConfState : Reader (UInt64 × ConfState) := do
  let index ← Reader.u64
  let voters ← readIdList
  let learners ← readIdList
  return (index, { voters, learners })

/-- The smallest membership file: magic, version, index, two empty tables, checksum. -/
def membershipMinLen : Nat := 4 + 4 + 8 + 4 + 4 + 4

/-- `read_membership` on the content of the file, if there is one. -/
def readMembership : Option Bytes → Except MembershipError (Option (UInt64 × ConfState))
  | none => .ok none
  | some buf =>
    if buf.length < membershipMinLen then
      .error (.corrupt (toString buf.length ++ " bytes is too short for a membership file"))
    else
      let magic := leNat (buf.take 4)
      if magic ≠ membershipMagic then .error (.corrupt ("bad magic 0x" ++ (BitVec.ofNat 32 magic).toHex))
      else
        let version := leNat ((buf.drop 4).take 4)
        if version ≠ membershipFormatVersion then
          .error (.corrupt ("unsupported version " ++ toString version ++ " (expected " ++
            toString membershipFormatVersion ++ ")"))
        else
          let body := buf.take (buf.length - 4)
          let expected := crc32c body
          let stored := BitVec.ofNat 32 (leNat (buf.drop (buf.length - 4)))
          if expected ≠ stored then
            .error (.corrupt ("crc mismatch (computed 0x" ++ expected.toHex ++ ", stored 0x" ++ stored.toHex ++ ")"))
          else
            match Reader.parse DecodeError.tooShort readConfState (body.drop 8) with
            | .error e => .error (.corrupt e.display)
            | .ok decoded => .ok (some decoded)

/-! ## META -/

/-- `META_MAGIC`. -/
def metaMagic : Nat := 0x4152414D

/-- Errors of the META file; I/O failures are left out. -/
inductive MetaError where
  | badMagic
  | checksumMismatch (expected actual : BitVec 32)
  | tooShort
  | truncatedField
  deriving DecidableEq, Repr

/-- The `Display` text of a META error. -/
def MetaError.display : MetaError → String
  | .badMagic => "META file has an invalid magic number"
  | .checksumMismatch expected actual =>
      "META checksum mismatch: expected 0x" ++ expected.toHex ++ ", got 0x" ++ actual.toHex
  | .tooShort => "META file is too short"
  | .truncatedField => "META file has a truncated field"

def utf8Bytes (s : String) : Bytes := s.toByteArray.data.toList

/-- A string behind its length, which is a `u16`. -/
def putString (s : String) : Bytes := leBytes 2 (utf8Bytes s).length ++ utf8Bytes s

def metaPayload (m : Meta) : Bytes :=
  putString m.clusterId ++ (putString m.nodeId ++ (u64Bytes m.createdAt ++ (u64Bytes m.snapshotIndex ++
    u64Bytes m.snapshotTerm)))

def encodeMeta (m : Meta) : Bytes :=
  u32Bytes metaMagic ++ (u32Bytes m.formatVersion.toNat ++ (leBytes 4 (crc32c (metaPayload m)).toNat ++ metaPayload m))

def readString : Reader String := do
  let len ← leNat <$> Reader.take 2
  let bytes ← Reader.take len
  match String.fromUTF8? ⟨bytes.toArray⟩ with
  | some s => return s
  | none => failure

def readIndexTerm : Reader (UInt64 × UInt64) := do
  let index ← Reader.u64
  let term ← Reader.u64
  return (index, term)

/-- The snapshot pointer; a file written before there was one ends without it. -/
def readPointer : Reader (UInt64 × UInt64) := fun bs =>
  if 16 ≤ bs.length then readIndexTerm bs else some ((0, 0), bs)

def readMetaPayload (version : UInt32) : Reader Meta := do
  let clusterId ← readString
  let nodeId ← readString
  let createdAt ← Reader.u64
  let (snapshotIndex, snapshotTerm) ← readPointer
  return { clusterId, nodeId, formatVersion := version, createdAt, snapshotIndex, snapshotTerm }

def decodeMeta (buf : Bytes) : Except MetaError Meta :=
  if buf.length < 24 then .error .tooShort
  else
    let magic := leNat (buf.take 4)
    if magic ≠ metaMagic then .error .badMagic
    else
      let version := leNat ((buf.drop 4).take 4)
      let storedCrc := BitVec.ofNat 32 (leNat ((buf.drop 8).take 4))
      let payload := buf.drop 12
      let actualCrc := crc32c payload
      if actualCrc ≠ storedCrc then .error (.checksumMismatch storedCrc actualCrc)
      else Reader.parse .truncatedField (readMetaPayload (UInt32.ofNat version)) payload

/-- `recover_meta` on the bytes of an existing META: decode it, then check it as `recoverMeta` does. -/
def recoverMetaFile (buf : Bytes) (dir : Dir) (opts : WalOptions) : Except StorageError Meta :=
  match decodeMeta buf with
  | .error e => .error (.unrecoverable ("failed to read META: " ++ e.display))
  | .ok m => (WalStorage.recoverMeta { dir with metaFile := some m } opts).2

/-! ## Reading back -/

theorem take_withCrc (body : Bytes) : (withCrc body).take ((withCrc body).length - 4) = body := by
  rw [withCrc, List.length_append, length_leBytes, Nat.add_sub_cancel, List.take_left]

theorem drop_withCrc (body : Bytes) : (withCrc body).drop ((withCrc body).length - 4) = leBytes 4 (crc32c body).toNat := by
  rw [withCrc, List.length_append, length_leBytes, Nat.add_sub_cancel, List.drop_left]

theorem reads_snapshotFields {snapshot : Snapshot} (hfits : snapshot.metadata.confState.Fits)
    (hdata : snapshot.data.length < 2 ^ 64) : Reader.Reads readSnapshotFields (snapshotFields snapshot) snapshot := by
  have hlen : Reader.Reads Reader.u64 (leBytes 8 snapshot.data.length) (UInt64.ofNat snapshot.data.length) := by
    have hread := Reader.Reads.u64 (UInt64.ofNat snapshot.data.length)
    rwa [u64Bytes, UInt64.toNat_ofNat_of_lt' hdata] at hread
  have hbytes : Reader.Reads (Reader.take (UInt64.ofNat snapshot.data.length).toNat) snapshot.data snapshot.data :=
    Reader.Reads.take (UInt64.toNat_ofNat_of_lt' hdata).symm
  exact (Reader.Reads.u64 _).bind ((Reader.Reads.u64 _).bind ((reads_putIds hfits.1).bind ((reads_putIds hfits.2).bind
    (hlen.bind (hbytes.bind_pure fun data => { snapshot with data })))))

/-- **A snapshot file holds its snapshot.** -/
theorem decodeSnapshot_encodeSnapshot {snapshot : Snapshot} (hfits : snapshot.metadata.confState.Fits)
    (hdata : snapshot.data.length < 2 ^ 64) : decodeSnapshot (encodeSnapshot snapshot) = .ok snapshot := by
  have hlong : ¬ (encodeSnapshot snapshot).length < 4 := by
    rw [encodeSnapshot, withCrc, List.length_append, length_leBytes]
    omega
  have hmagic := Reader.Reads.u32 (show snapshotMagic < 2 ^ 32 by decide)
  have hversion := Reader.Reads.u32 (show formatVersion.toNat < 2 ^ 32 by decide)
  simp only [decodeSnapshot]
  rw [if_neg hlong, encodeSnapshot, take_withCrc, drop_withCrc, ofNat_leNat_crc, if_neg (not_not_intro rfl), hmagic]
  simp only [ne_eq, not_true_eq_false, if_false]
  rw [hversion]
  simp only [not_true_eq_false, if_false]
  exact (reads_snapshotFields hfits hdata).parse _

theorem reads_confState (index : UInt64) {confState : ConfState} (hfits : confState.Fits) :
    Reader.Reads readConfState (encodeConfState index confState) (index, confState) := by
  rw [readConfState, encodeConfState]
  refine (Reader.Reads.u64 index).bind ?_
  refine (reads_putIds hfits.1).bind ?_
  exact (reads_putIds hfits.2).bind_pure fun learners => (index, ConfState.mk confState.voters learners)

/-- A word in front, and what follows it. -/
theorem take_u32Bytes (n : Nat) (rest : Bytes) : (u32Bytes n ++ rest).take 4 = u32Bytes n :=
  List.take_left' (length_leBytes 4 n)

theorem drop_u32Bytes (n : Nat) (rest : Bytes) : (u32Bytes n ++ rest).drop 4 = rest :=
  List.drop_left' (length_leBytes 4 n)

theorem four_le_length_putIds (ids : List UInt64) : 4 ≤ (putIds ids).length := by
  rw [putIds, List.length_append, u32Bytes, length_leBytes]
  exact Nat.le_add_right 4 _

/-- **The membership file holds the membership.** -/
theorem readMembership_membershipBlob (index : UInt64) {confState : ConfState} (hfits : confState.Fits) :
    readMembership (some (membershipBlob index confState)) = .ok (some (index, confState)) := by
  have hlong : ¬ (membershipBlob index confState).length < membershipMinLen := by
    have hvoters := four_le_length_putIds confState.voters
    have hlearners := four_le_length_putIds confState.learners
    simp only [membershipBlob, withCrc, encodeConfState, membershipMinLen, u32Bytes, u64Bytes, List.length_append,
      length_leBytes]
    omega
  have hlayout : membershipBlob index confState = u32Bytes membershipMagic ++ (u32Bytes membershipFormatVersion ++
      (encodeConfState index confState ++ leBytes 4 (crc32c (u32Bytes membershipMagic ++
        (u32Bytes membershipFormatVersion ++ encodeConfState index confState))).toNat)) := by
    rw [membershipBlob, withCrc, List.append_assoc, List.append_assoc]
  have hmagic : leNat ((membershipBlob index confState).take 4) = membershipMagic := by
    rw [hlayout, take_u32Bytes]
    exact leNat_leBytes (by decide)
  have hversion : leNat (((membershipBlob index confState).drop 4).take 4) = membershipFormatVersion := by
    rw [hlayout, drop_u32Bytes, take_u32Bytes]
    exact leNat_leBytes (by decide)
  have hparse : Reader.parse DecodeError.tooShort readConfState (encodeConfState index confState) =
      .ok (index, confState) := by
    refine Reader.parse_eq_ok.mpr ⟨[], ?_⟩
    have hread := reads_confState index hfits []
    rwa [List.append_nil] at hread
  simp only [readMembership, hmagic, hversion, if_neg hlong, ne_eq, not_true_eq_false, if_false]
  rw [membershipBlob, take_withCrc, drop_withCrc, ofNat_leNat_crc, if_neg (not_not_intro rfl),
    show (8 : Nat) = 4 + 4 by rfl, ← List.drop_drop, drop_u32Bytes, drop_u32Bytes, hparse]

theorem readMembership_membershipBlob_sample :
    readMembership (some (membershipBlob 7 ⟨[1, 2], [3]⟩)) = .ok (some (7, ⟨[1, 2], [3]⟩)) :=
  readMembership_membershipBlob 7 ⟨by decide, by decide⟩

theorem reads_putString {s : String} (h : (utf8Bytes s).length < 2 ^ 16) : Reader.Reads readString (putString s) s := by
  have hlen : Reader.Reads (leNat <$> Reader.take 2) (leBytes 2 (utf8Bytes s).length) (utf8Bytes s).length := by
    have hread := (Reader.Reads.take (length_leBytes 2 (utf8Bytes s).length)).map leNat
    rwa [leNat_leBytes h] at hread
  refine hlen.bind ?_
  rw [← List.append_nil (utf8Bytes s)]
  refine (Reader.Reads.take (by rw [List.append_nil])).bind ?_
  have hdecode : String.fromUTF8? ⟨(utf8Bytes s).toArray⟩ = some s := dif_pos s.isValidUTF8
  rw [hdecode]
  exact Reader.Reads.pure s

theorem reads_indexTerm (index term : UInt64) :
    Reader.Reads readIndexTerm (u64Bytes index ++ u64Bytes term) (index, term) :=
  (Reader.Reads.u64 index).bind ((Reader.Reads.u64 term).bind_pure fun term => (index, term))

theorem reads_pointer (index term : UInt64) : readPointer (u64Bytes index ++ u64Bytes term) = some ((index, term), []) := by
  have hlong : 16 ≤ (u64Bytes index ++ u64Bytes term).length := by
    rw [List.length_append, u64Bytes, u64Bytes, length_leBytes, length_leBytes]
  rw [readPointer, if_pos hlong]
  have hrun := reads_indexTerm index term []
  rwa [List.append_nil] at hrun

/-- The three words in front of a payload. -/
theorem header_words {magic version crc : Nat} {payload buf : Bytes}
    (h : buf = u32Bytes magic ++ (u32Bytes version ++ (u32Bytes crc ++ payload))) :
    buf.take 4 = u32Bytes magic ∧ (buf.drop 4).take 4 = u32Bytes version ∧ (buf.drop 8).take 4 = u32Bytes crc ∧
      buf.drop 12 = payload := by
  subst h
  refine ⟨take_u32Bytes _ _, ?_, ?_, ?_⟩
  · rw [drop_u32Bytes, take_u32Bytes]
  · rw [show (8 : Nat) = 4 + 4 by rfl, ← List.drop_drop, drop_u32Bytes, drop_u32Bytes, take_u32Bytes]
  · rw [show (12 : Nat) = 4 + 4 + 4 by rfl, ← List.drop_drop, ← List.drop_drop, drop_u32Bytes, drop_u32Bytes, drop_u32Bytes]

/-- **META holds the metadata.** -/
theorem decodeMeta_encodeMeta {m : Meta} (hcluster : (utf8Bytes m.clusterId).length < 2 ^ 16)
    (hnode : (utf8Bytes m.nodeId).length < 2 ^ 16) : decodeMeta (encodeMeta m) = .ok m := by
  have hlayout : encodeMeta m = _ := rfl
  obtain ⟨hmagic, hversion, hcrc, hpayload⟩ := header_words hlayout
  have hlong : ¬ (encodeMeta m).length < 24 := by
    simp only [encodeMeta, metaPayload, putString, u32Bytes, u64Bytes, List.length_append, length_leBytes]
    omega
  have hparse : Reader.parse MetaError.truncatedField (readMetaPayload m.formatVersion) (metaPayload m) = .ok m := by
    refine Reader.parse_eq_ok.mpr ⟨[], ?_⟩
    rw [readMetaPayload, metaPayload, (reads_putString hcluster).run_bind, (reads_putString hnode).run_bind,
      (Reader.Reads.u64 m.createdAt).run_bind, Reader.bind_apply, reads_pointer]
    rfl
  have hmagic' : leNat (u32Bytes metaMagic) = metaMagic := leNat_leBytes (by decide)
  have hversion' : UInt32.ofNat (leNat (u32Bytes m.formatVersion.toNat)) = m.formatVersion := by
    rw [u32Bytes, leNat_leBytes m.formatVersion.toNat_lt, UInt32.ofNat_toNat]
  have hcrc' : BitVec.ofNat 32 (leNat (u32Bytes (crc32c (metaPayload m)).toNat)) = crc32c (metaPayload m) :=
    ofNat_leNat_crc _
  simp only [decodeMeta]
  rw [if_neg hlong, hmagic, hversion, hcrc, hpayload, hmagic', hversion', hcrc', if_neg (not_not_intro rfl),
    if_neg (not_not_intro rfl), hparse]

theorem decodeMeta_encodeMeta_sample :
    decodeMeta (encodeMeta ⟨"c", "n1", 4, 9, 5, 2⟩) = .ok ⟨"c", "n1", 4, 9, 5, 2⟩ :=
  decodeMeta_encodeMeta (by decide +kernel) (by decide +kernel)

/-! ## Nothing else reads as a snapshot

The reverse direction for snapshot files: what the decoder accepts are the bytes the encoder writes for the result, down
to the last one. -/

theorem consumes_idList : Reader.Consumes readIdList fun ids used => used = putIds ids := by
  refine Reader.Consumes.u32.bind ?_
  rintro len used ⟨rfl, -⟩ bs ids rest h
  obtain ⟨more, hbs, rfl, rfl⟩ := Reader.Consumes.many Reader.Consumes.u64 len bs ids rest h
  exact ⟨_, hbs, rfl⟩

theorem consumes_snapshotFields :
    Reader.Consumes readSnapshotFields fun snapshot used => used = snapshotFields snapshot := by
  refine Reader.Consumes.u64.bind ?_
  rintro index _ rfl
  refine Reader.Consumes.u64.bind ?_
  rintro term _ rfl
  refine consumes_idList.bind ?_
  rintro voters _ rfl
  refine consumes_idList.bind ?_
  rintro learners _ rfl
  refine Reader.Consumes.u64.bind ?_
  rintro dataLen _ rfl
  refine (Reader.Consumes.take dataLen.toNat).bind ?_
  rintro data _ ⟨rfl, hlen⟩
  refine Reader.Consumes.pure ?_
  -- the length that was read is the length of the data that was taken
  rw [List.append_nil, snapshotFields, hlen]
  rfl

/-- A file whose last four bytes are the checksum of the others. -/
theorem withCrc_take {bytes : Bytes} (hlong : 4 ≤ bytes.length)
    (hcrc : BitVec.ofNat 32 (leNat (bytes.drop (bytes.length - 4))) = crc32c (bytes.take (bytes.length - 4))) :
    withCrc (bytes.take (bytes.length - 4)) = bytes := by
  have hlen : (bytes.drop (bytes.length - 4)).length = 4 := by
    rw [List.length_drop]
    omega
  have hspell := leBytes_leNat (bytes.drop (bytes.length - 4))
  have hlt := leNat_lt (bytes.drop (bytes.length - 4))
  rw [hlen] at hspell hlt
  rw [withCrc, ← hcrc, BitVec.toNat_ofNat, show 2 ^ 32 = 256 ^ 4 by rfl, Nat.mod_eq_of_lt hlt, hspell, List.take_append_drop]

theorem encodeSnapshot_of_decodeSnapshot {bytes : Bytes} {snapshot : Snapshot} (h : decodeSnapshot bytes = .ok snapshot) :
    encodeSnapshot snapshot = bytes := by
  simp only [decodeSnapshot] at h
  split at h
  · cases h
  next hlong =>
  split at h
  · cases h
  next hcrc =>
  split at h
  · cases h
  next magic rest hmagic =>
  split at h
  · cases h
  next hmagicOk =>
  split at h
  · cases h
  next version fields hversion =>
  split at h
  · cases h
  next hversionOk =>
  obtain ⟨_, hbody, rfl, -⟩ := Reader.Consumes.u32 _ _ _ hmagic
  obtain ⟨_, rfl, rfl, -⟩ := Reader.Consumes.u32 _ _ _ hversion
  obtain rfl := consumes_snapshotFields.parse_eof h
  rw [encodeSnapshot, ← Decidable.not_not.mp hmagicOk, ← Decidable.not_not.mp hversionOk, ← hbody]
  exact withCrc_take (Nat.not_lt.mp hlong) (Decidable.not_not.mp hcrc)

/-- **The snapshot file format is exact.** A snapshot whose lengths fit their fields is read back from its file, and a
file that is read at all is the file of what was read. -/
theorem snapshotFile_exact :
    (∀ snapshot : Snapshot, snapshot.metadata.confState.Fits → snapshot.data.length < 2 ^ 64 →
      decodeSnapshot (encodeSnapshot snapshot) = .ok snapshot) ∧
    ∀ bytes snapshot, decodeSnapshot bytes = .ok snapshot → encodeSnapshot snapshot = bytes :=
  ⟨fun _ => decodeSnapshot_encodeSnapshot, fun _ _ => encodeSnapshot_of_decodeSnapshot⟩

/-- A snapshot with one voter, one learner and two bytes of data. -/
theorem snapshotFile_exact_sample :
    let snapshot : Snapshot := { metadata := { index := 5, term := 2, confState := { voters := [1], learners := [4] } },
                                 data := [7, 8] }
    decodeSnapshot (encodeSnapshot snapshot) = .ok snapshot ∧
      ∃ bytes, bytes.length = 62 ∧ decodeSnapshot bytes = .ok snapshot ∧ encodeSnapshot snapshot = bytes := by
  intro snapshot
  have hread := snapshotFile_exact.1 snapshot ⟨by decide, by decide⟩ (by decide)
  exact ⟨hread, encodeSnapshot snapshot, by decide +kernel, hread, snapshotFile_exact.2 _ snapshot hread⟩

/-- A snapshot file names its snapshot in a fixed place, whatever follows. -/
theorem readIndexTerm_encodeSnapshot (snapshot : Snapshot) (more : Bytes) :
    ∃ rest, readIndexTerm ((encodeSnapshot snapshot ++ more).drop 8) =
      some ((snapshot.metadata.index, snapshot.metadata.term), rest) := by
  have hlayout : ∃ rest, (encodeSnapshot snapshot ++ more).drop 8 =
      u64Bytes snapshot.metadata.index ++ u64Bytes snapshot.metadata.term ++ rest := by
    rw [encodeSnapshot, withCrc, show (8 : Nat) = 4 + 4 by rfl, ← List.drop_drop, List.append_assoc, List.append_assoc,
      drop_u32Bytes, List.append_assoc, drop_u32Bytes, snapshotFields, List.append_assoc, List.append_assoc]
    exact ⟨_, (List.append_assoc _ _ _).symm⟩
  obtain ⟨rest, hlayout⟩ := hlayout
  exact ⟨rest, hlayout ▸ reads_indexTerm snapshot.metadata.index snapshot.metadata.term rest⟩

/-- A snapshot file that begins with another one is of the same index and term. -/
theorem identity_of_isPrefix {part snapshot : Snapshot} (h : encodeSnapshot part <+: encodeSnapshot snapshot) :
    part.metadata.index = snapshot.metadata.index ∧ part.metadata.term = snapshot.metadata.term := by
  obtain ⟨more, hmore⟩ := h
  obtain ⟨rest, hpart⟩ := readIndexTerm_encodeSnapshot part more
  obtain ⟨rest', hwhole⟩ := readIndexTerm_encodeSnapshot snapshot []
  rw [hmore] at hpart
  rw [List.append_nil, hpart] at hwhole
  have hid := (Prod.mk.inj (Option.some.inj hwhole)).1
  exact ⟨congrArg Prod.fst hid, congrArg Prod.snd hid⟩

/-! ## Altered files -/

/-- What a decoded META says about its bytes. -/
theorem decodeMeta_eq_ok {buf : Bytes} {m : Meta} (h : decodeMeta buf = .ok m) :
    leNat (buf.take 4) = metaMagic ∧ UInt32.ofNat (leNat ((buf.drop 4).take 4)) = m.formatVersion ∧
      BitVec.ofNat 32 (leNat ((buf.drop 8).take 4)) = crc32c (buf.drop 12) := by
  have hversion : ∀ version, Reader.Yields (readMetaPayload version) fun m => m.formatVersion = version := fun version =>
    (Reader.Yields.any _).bind fun _ _ => (Reader.Yields.any _).bind fun _ _ => (Reader.Yields.any _).bind fun _ _ =>
      (Reader.Yields.any _).bind fun _ _ => Reader.Yields.pure rfl
  simp only [decodeMeta] at h
  split at h
  · cases h
  split at h
  · cases h
  next hmagic =>
  split at h
  · cases h
  next hcrc =>
  obtain ⟨rest, hrun⟩ := Reader.parse_eq_ok.mp h
  exact ⟨Decidable.not_not.mp hmagic, (hversion _ _ _ _ hrun).symm, (Decidable.not_not.mp hcrc).symm⟩

/-- Files with the same three words in front and the same payload are the same. -/
theorem eq_of_header {as bs : Bytes} (hlen : as.length = bs.length)
    (h0 : leNat (as.take 4) = leNat (bs.take 4)) (h4 : leNat ((as.drop 4).take 4) = leNat ((bs.drop 4).take 4))
    (h8 : leNat ((as.drop 8).take 4) = leNat ((bs.drop 8).take 4)) (h12 : as.drop 12 = bs.drop 12) : as = bs := by
  have hsplit : ∀ xs : Bytes, xs.take 4 ++ ((xs.drop 4).take 4 ++ ((xs.drop 8).take 4 ++ xs.drop 12)) = xs := by
    intro xs
    rw [show xs.drop 12 = (xs.drop 8).drop 4 by rw [List.drop_drop], List.take_append_drop,
      show xs.drop 8 = (xs.drop 4).drop 4 by rw [List.drop_drop], List.take_append_drop, List.take_append_drop]
  have h0' := leNat_inj (by rw [List.length_take, List.length_take, hlen]) h0
  have h4' := leNat_inj (by rw [List.length_take, List.length_take, List.length_drop, List.length_drop, hlen]) h4
  have h8' := leNat_inj (by rw [List.length_take, List.length_take, List.length_drop, List.length_drop, hlen]) h8
  rw [← hsplit as, ← hsplit bs, h0', h4', h8', h12]

/-- A META file with one byte changed decodes, if at all, to one of another format version. -/
theorem decodeMeta_altered {m m' : Meta} {bytes : Bytes} (h : Altered 1 (encodeMeta m) bytes)
    (hdecode : decodeMeta bytes = .ok m') : m'.formatVersion ≠ m.formatVersion := by
  intro hversion
  obtain ⟨hmagic, hword, hcrc⟩ := decodeMeta_eq_ok hdecode
  have hlayout : encodeMeta m = _ := rfl
  obtain ⟨hmagic', hword', hcrc', hpayload'⟩ := header_words hlayout
  have hlen := h.length_eq
  have h0 : leNat (bytes.take 4) = leNat ((encodeMeta m).take 4) := by
    rw [hmagic, hmagic']
    exact (leNat_leBytes (by decide)).symm
  have h4 : leNat ((bytes.drop 4).take 4) = leNat (((encodeMeta m).drop 4).take 4) := by
    have hlt : leNat ((bytes.drop 4).take 4) < 2 ^ 32 :=
      Nat.lt_of_lt_of_le (leNat_lt _) (Nat.pow_le_pow_right (by decide) (List.length_take_le 4 _))
    rw [hword', u32Bytes, leNat_leBytes m.formatVersion.toNat_lt, ← hversion, ← hword, UInt32.toNat_ofNat_of_lt' hlt]
  -- the word the checksum is in, from the checksum it spells
  have hspell : ∀ bs : Bytes, leNat ((bs.drop 8).take 4) = (BitVec.ofNat 32 (leNat ((bs.drop 8).take 4))).toNat := by
    intro bs
    rw [BitVec.toNat_ofNat, Nat.mod_eq_of_lt]
    exact Nat.lt_of_lt_of_le (leNat_lt _) (Nat.pow_le_pow_right (by decide) (List.length_take_le 4 _))
  have hfile : BitVec.ofNat 32 (leNat (((encodeMeta m).drop 8).take 4)) = crc32c ((encodeMeta m).drop 12) := by
    rw [hcrc', hpayload']
    exact ofNat_leNat_crc _
  obtain ⟨pre, a, b, post, hab, hpre, hpre'⟩ := h.one_byte
  rcases Nat.lt_or_ge pre.length 12 with hshort | hlong
  · -- the payload is as it was, so its checksum is too
    have h12 : bytes.drop 12 = (encodeMeta m).drop 12 := by
      have hskip : ∀ c, (pre ++ c :: post).drop 12 = post.drop (12 - (pre.length + 1)) := by
        intro c
        have hnil : (pre ++ [c]).drop 12 = [] := List.drop_eq_nil_of_le (by rw [List.length_append]; exact hshort)
        rw [List.append_cons, List.drop_append, hnil, List.nil_append, List.length_append]
        rfl
      rw [hpre', hpre, hskip, hskip]
    refine h.1 (eq_of_header hlen h0 h4 ?_ h12)
    rw [hspell, hspell (encodeMeta m), hcrc, hfile, h12]
  · -- the checksum is as it was, so the payload must be too
    have h12 : ∀ c, (pre ++ c :: post).drop 12 = pre.drop 12 ++ c :: post := fun c => List.drop_append_of_le_length hlong
    have h8 : (bytes.drop 8).take 4 = ((encodeMeta m).drop 8).take 4 := by
      have hkeep : ∀ c, ((pre ++ c :: post).drop 8).take 4 = (pre.drop 8).take 4 := by
        intro c
        rw [List.drop_append_of_le_length (by omega), List.take_append_of_le_length (by rw [List.length_drop]; omega)]
      rw [hpre', hpre, hkeep, hkeep]
    rw [h8, hfile, hpre, hpre', h12, h12] at hcrc
    exact crc32c_ne_of_one_byte (pre.drop 12) post hab hcrc

theorem recoverMetaFile_altered {m : Meta} (hm : m.formatVersion = formatVersion) {bytes : Bytes}
    (h : Altered 1 (encodeMeta m) bytes) (dir : Dir) (opts : WalOptions) :
    ∃ detail, recoverMetaFile bytes dir opts = .error (.unrecoverable detail) := by
  rw [recoverMetaFile]
  split
  · exact ⟨_, rfl⟩
  · next m' hdecode =>
      have hversion := decodeMeta_altered h hdecode
      rw [hm] at hversion
      simp only [WalStorage.recoverMeta]
      split
      · exact ⟨_, rfl⟩
      split
      · exact ⟨_, rfl⟩
      exact ⟨_, rfl⟩

theorem decodeSnapshot_altered {snapshot : Snapshot} {bytes : Bytes} (h : Altered 4 (encodeSnapshot snapshot) bytes) :
    ∃ e, decodeSnapshot bytes = .error e := by
  have hcrc := crc32c_ne_of_altered h
  simp only [decodeSnapshot]
  split
  · exact ⟨_, rfl⟩
  rw [if_pos hcrc.symm]
  exact ⟨_, rfl⟩

theorem readMembership_altered {index : UInt64} {confState : ConfState} {bytes : Bytes}
    (h : Altered 4 (membershipBlob index confState) bytes) : ∃ e, readMembership (some bytes) = .error e := by
  have hcrc := crc32c_ne_of_altered h
  simp only [readMembership]
  split
  · exact ⟨_, rfl⟩
  split
  · exact ⟨_, rfl⟩
  split
  · exact ⟨_, rfl⟩
  exact ⟨_, rfl⟩

/-- The META of a store is of the current format version. -/
theorem WalRun.meta_version {opts : WalOptions} {ok : WalStorage → Op → Prop} {ops : List Op} {s : WalStorage}
    (h : WalRun opts ok ops s) {m : Meta} (hm : s.dir.metaFile = some m) : m.formatVersion = formatVersion := by
  obtain ⟨log, base, hinv⟩ := h.inv
  have hfile := hinv.snapped.metaFile_eq
  rw [hm] at hfile
  rw [Option.some.inj hfile]
  exact hinv.snapped.version_eq

/-- **Short alterations are rejected.** A membership or snapshot file with up to four consecutive bytes changed, and the
META of a store with one byte changed, is never read as anything. -/
theorem short_alterations_rejected :
    (∀ index confState bytes, Altered 4 (membershipBlob index confState) bytes →
      ∃ e, readMembership (some bytes) = .error e) ∧
    (∀ snapshot bytes, Altered 4 (encodeSnapshot snapshot) bytes → ∃ e, decodeSnapshot bytes = .error e) ∧
    ∀ opts ok ops s m, WalRun opts ok ops s → s.dir.metaFile = some m → ∀ bytes, Altered 1 (encodeMeta m) bytes →
      ∀ dir opts', ∃ detail, recoverMetaFile bytes dir opts' = .error (.unrecoverable detail) :=
  ⟨fun _ _ _ => readMembership_altered, fun _ _ => decodeSnapshot_altered,
    fun _ _ _ _ _ hrun hm _ h dir opts' => recoverMetaFile_altered (hrun.meta_version hm) h dir opts'⟩

/-- Changes at the seam between a body and its checksum, and in the format version of a fresh META. -/
theorem short_alterations_rejected_sample :
    (∃ e, readMembership (some ((membershipBlob 7 { voters := [1, 2], learners := [] }).set 40 0 |>.set 39 9)) =
      .error e) ∧
    ∃ s m, WalRun (sampleOptions 8) (fun _ _ => True) [] s ∧ s.dir.metaFile = some m ∧
      (decodeMeta ((encodeMeta m).set 4 5)).toOption = some { m with formatVersion := 5 } ∧
      ∃ detail, recoverMetaFile ((encodeMeta m).set 4 5) s.dir (sampleOptions 8) = .error (.unrecoverable detail) := by
  refine ⟨short_alterations_rejected.1 7 { voters := [1, 2], learners := [] } _ ⟨by decide +kernel,
    (membershipBlob 7 { voters := [1, 2], learners := [] }).take 39,
    ((membershipBlob 7 { voters := [1, 2], learners := [] }).drop 39).take 2, [9, 0],
    (membershipBlob 7 { voters := [1, 2], learners := [] }).drop 41, by decide +kernel, by decide +kernel,
    by decide +kernel, by decide +kernel⟩, ?_⟩
  have heval : (runOps (sampleOptions 8) (fun _ _ => True) []).any (fun s => s.dir.metaFile.any fun m =>
      (decodeMeta ((encodeMeta m).set 4 5)).toOption = some { m with formatVersion := 5 } ∧
        (encodeMeta m).set 4 5 ≠ encodeMeta m ∧ encodeMeta m = (encodeMeta m).take 4 ++ [4] ++ (encodeMeta m).drop 5 ∧
        (encodeMeta m).set 4 5 = (encodeMeta m).take 4 ++ [5] ++ (encodeMeta m).drop 5) := by
    decide +kernel
  obtain ⟨s, hs, heval⟩ := (Option.any_eq_true _ _).mp heval
  obtain ⟨m, hm, heval⟩ := (Option.any_eq_true _ _).mp heval
  obtain ⟨hdecode, hne, hfile, hbytes⟩ := of_decide_eq_true heval
  have hrun := WalRun.of_runOps hs
  exact ⟨s, m, hrun, hm, hdecode, short_alterations_rejected.2.2 _ _ _ s m hrun hm _
    ⟨hne, _, _, _, _, hfile, hbytes, rfl, Nat.le_refl 1⟩ s.dir _⟩

end Arachne.Storage
