import Mathlib.Data.List.Induction
import Arachne.Storage.Recovery

/-! # Segments as records

The abstract view of the log: each segment is the list of records written to it, and the directory
holds their concatenated encodings (`Log.bytes`). The two scans of the store are computed on this view:

* **Replay** of bytes that read as `rs` followed by `rest` takes in `rs` and continues with `rest`
  (`replaySegment_frames`), whatever `rest` is: nothing, a torn record, or a damaged one.
* **The cut point** `truncate_log_to` looks for is just past the first record of its entry
  (`findHolding_reads`); segments without that entry are passed over (`findHolding_skip`).

A store only writes encodings, `image rs`; a directory from elsewhere may hold other bytes that read as records
(`Frames`). `readRecords` reads a segment back, so statements about a directory can speak of its records. -/

namespace Arachne.Storage

open Codec (Bytes leNat)

/-! ## Records and their images -/

/-- The bytes of a list of records. -/
def image (rs : List Record) : Bytes := rs.flatMap Record.encode

@[simp] theorem image_nil : image [] = [] := rfl

@[simp] theorem image_cons (r : Record) (rs : List Record) : image (r :: rs) = r.encode ++ image rs := rfl

@[simp] theorem image_append (xs ys : List Record) : image (xs ++ ys) = image xs ++ image ys :=
  List.flatMap_append

def Record.entry? : Record → Option LogEntry
  | .entry e => some e
  | .hardState _ => none

def Record.hardState? : Record → Option HardState
  | .entry _ => none
  | .hardState hs => some hs

/-- The log entries among some records. -/
def entriesOf (rs : List Record) : List LogEntry := rs.filterMap Record.entry?

/-- The last hard state among some records. -/
def hardStateOf (rs : List Record) : HardState :=
  (rs.filterMap Record.hardState?).getLast?.getD .default

@[simp] theorem entriesOf_nil : entriesOf [] = [] := rfl

@[simp] theorem entriesOf_append (xs ys : List Record) :
    entriesOf (xs ++ ys) = entriesOf xs ++ entriesOf ys := List.filterMap_append

@[simp] theorem entriesOf_entry_cons (e : LogEntry) (rs : List Record) :
    entriesOf (.entry e :: rs) = e :: entriesOf rs := rfl

@[simp] theorem entriesOf_hardState_cons (hs : HardState) (rs : List Record) :
    entriesOf (.hardState hs :: rs) = entriesOf rs := rfl

@[simp] theorem entriesOf_map_entry (es : List LogEntry) : entriesOf (es.map .entry) = es :=
  List.filterMap_map.trans List.filterMap_some

theorem hardStateOf_append_hardState (rs : List Record) (hs : HardState) :
    hardStateOf (rs ++ [.hardState hs]) = hs := by
  simp [hardStateOf, Record.hardState?]

/-- Records without a hard state do not change the last one. -/
theorem hardStateOf_append_of_none {xs ys : List Record} (h : ∀ r ∈ ys, r.hardState? = none) :
    hardStateOf (xs ++ ys) = hardStateOf xs := by
  have : ys.filterMap Record.hardState? = [] := by
    rw [List.filterMap_eq_nil_iff]; exact h
  rw [hardStateOf, List.filterMap_append, this, List.append_nil, hardStateOf]

/-- Records in front of a hard state do not matter. -/
theorem hardStateOf_append_of_some {xs ys : List Record} {r : Record} (hr : r ∈ ys)
    (h : r.hardState? ≠ none) : hardStateOf (xs ++ ys) = hardStateOf ys := by
  have hne : ys.filterMap Record.hardState? ≠ [] := by
    intro hnil
    exact h (List.filterMap_eq_nil_iff.mp hnil r hr)
  rw [hardStateOf, List.filterMap_append, List.getLast?_append_of_ne_nil _ hne, hardStateOf]

theorem eight_le_length_encode (r : Record) : 8 ≤ r.encode.length := by
  cases r <;> rw [Record.encode, length_encodeRecord] <;> omega

/-! ## Reading a record

A buffer may read as a record without being its encoding: the vote flag and the entry type have more than one byte that
reads the same. What the scans rely on holds of every buffer that reads as a record. -/

/-- The record in a buffer that holds exactly one. -/
def readRecord? (buf : Bytes) : Option Record :=
  match decodeRecord buf with
  | .ok (.entry, payload) =>
    match decodeEntry payload with
    | .ok (index, term, entryType, data) =>
      some (.entry { index, term, entryType := entryTypeToSeam entryType, data })
    | .error _ => none
  | .ok (.hardState, payload) =>
    match decodeHardState payload with
    | .ok (term, vote, commit) => some (.hardState { term, vote, commit })
    | .error _ => none
  | _ => none

theorem readRecord?_encode {r : Record} (h : r.Fits) : readRecord? r.encode = some r := by
  cases r with
  | entry e => simp only [readRecord?, decodeRecord_entry h, decodeEntry_payload, entryTypeToSeam_toU8]
  | hardState hs => simp only [readRecord?, decodeRecord_hardState, decodeHardState_encodeHardState]

theorem length_of_decodeRecord {buf : Bytes} {x : RecordType × Bytes} (h : decodeRecord buf = .ok x) :
    8 + leNat (buf.take 4) = buf.length := by
  rw [decodeRecord] at h
  split at h
  · cases h
  · dsimp only at h
    split at h
    · cases h
    · next hlen => exact (not_not.mp hlen).symm

theorem length_of_readRecord? {buf : Bytes} {r : Record} (h : readRecord? buf = some r) :
    8 + leNat (buf.take 4) = buf.length := by
  cases hdec : decodeRecord buf with
  | error e => simp [readRecord?, hdec] at h
  | ok x => exact length_of_decodeRecord hdec

/-- The record header states where the record ends, whatever follows it. -/
theorem size_append {buf : Bytes} {r : Record} (h : readRecord? buf = some r) (rest : Bytes) :
    8 + leNat ((buf ++ rest).take 4) = buf.length := by
  have hlen := length_of_readRecord? h
  rw [List.take_append_of_le_length (by omega), hlen]

theorem not_isTear_append {buf : Bytes} {r : Record} (h : readRecord? buf = some r) (rest : Bytes) :
    ¬ isTear (buf ++ rest) := by
  have hlen := length_of_readRecord? h
  rw [isTear, size_append h, List.length_append]
  omega

theorem size_encode_append {r : Record} (h : r.Fits) (rest : Bytes) :
    8 + leNat ((r.encode ++ rest).take 4) = r.encode.length := size_append (readRecord?_encode h) rest

/-- The bytes read as the records, one after the other and with nothing left over. -/
inductive Frames : Bytes → List Record → Prop where
  | nil : Frames [] []
  | cons {buf rest : Bytes} {r : Record} {rs : List Record} (hread : readRecord? buf = some r) (hrest : Frames rest rs) :
      Frames (buf ++ rest) (r :: rs)

namespace Frames

variable {raw raw' : Bytes} {rs rs' : List Record}

theorem single {buf : Bytes} {r : Record} (h : readRecord? buf = some r) : Frames buf [r] := by
  have hframes := Frames.cons h .nil
  rwa [List.append_nil] at hframes

theorem append (h : Frames raw rs) (h' : Frames raw' rs') : Frames (raw ++ raw') (rs ++ rs') := by
  induction h with
  | nil => exact h'
  | cons hread _ ih =>
      rw [List.append_assoc]
      exact .cons hread ih

/-- Where some of the records end. -/
theorem split (h : Frames raw (rs ++ rs')) : ∃ front back, raw = front ++ back ∧ Frames front rs ∧ Frames back rs' := by
  induction rs generalizing raw with
  | nil => exact ⟨[], raw, rfl, .nil, h⟩
  | cons r rs ih =>
      cases h with
      | cons hread hrest =>
          obtain ⟨front, back, rfl, hfront, hback⟩ := ih hrest
          exact ⟨_, back, (List.append_assoc ..).symm, .cons hread hfront, hback⟩

theorem image (h : ∀ r ∈ rs, r.Fits) : Frames (image rs) rs := by
  induction rs with
  | nil => exact .nil
  | cons r rs ih =>
      rw [List.forall_mem_cons] at h
      exact .cons (readRecord?_encode h.1) (ih h.2)

end Frames

/-! ## Replay -/

/-- Take in a list of records. -/
def Recovered.pushAll (acc : Recovered) (rs : List Record) : Recovered := rs.foldl push acc

@[simp] theorem Recovered.pushAll_nil (acc : Recovered) : acc.pushAll [] = acc := rfl

@[simp] theorem Recovered.pushAll_cons (acc : Recovered) (r : Record) (rs : List Record) :
    acc.pushAll (r :: rs) = (acc.push r).pushAll rs := rfl

theorem Recovered.pushAll_append (acc : Recovered) (xs ys : List Record) :
    acc.pushAll (xs ++ ys) = (acc.pushAll xs).pushAll ys := List.foldl_append

/-- Starting from nothing, the records' entries and their last hard state are gathered. -/
theorem Recovered.init_pushAll (rs : List Record) :
    Recovered.init.pushAll rs = ⟨entriesOf rs, hardStateOf rs, 0, []⟩ := by
  induction rs using List.reverseRecOn with
  | nil => rfl
  | append_singleton rs r ih =>
      rw [pushAll_append, ih, pushAll_cons, pushAll_nil]
      cases r with
      | entry e =>
          rw [hardStateOf_append_of_none (by simp [Record.hardState?]), entriesOf_append]
          rfl
      | hardState hs =>
          rw [hardStateOf_append_hardState, entriesOf_append]
          simp [push, entriesOf, Record.entry?]

namespace WalStorage

/-- A record is taken in exactly if it can be read. -/
theorem replayRecord_eq_ok {idx offset : Nat} {buf : Bytes} {acc acc' : Recovered} :
    replayRecord idx offset buf acc = .ok acc' ↔ ∃ r, readRecord? buf = some r ∧ acc' = acc.push r := by
  rw [replayRecord, readRecord?]
  cases decodeRecord buf with
  | error e => simp
  | ok x =>
      obtain ⟨recordType, payload⟩ := x
      cases recordType with
      | entry =>
          cases hentry : decodeEntry payload with
          | error e => simp [hentry]
          | ok y => simp [hentry, eq_comm]
      | hardState =>
          cases hhs : decodeHardState payload with
          | error e => simp [hhs]
          | ok y => simp [hhs, eq_comm]
      | metaRecord => simp

variable {idx : Nat} {isLast : Bool} {compactedTo : Nat}

/-- Fuel beyond the remaining length makes no difference. -/
theorem replaySegment_fuel {n m offset : Nat} {rest : Bytes} {acc : Recovered}
    (hn : rest.length ≤ n) (hm : rest.length ≤ m) :
    replaySegment idx isLast compactedTo n offset rest acc =
      replaySegment idx isLast compactedTo m offset rest acc := by
  induction n generalizing m offset rest acc with
  | zero =>
      have hnil : rest = [] := List.eq_nil_of_length_eq_zero (Nat.le_zero.mp hn)
      cases m <;> simp [replaySegment, hnil]
  | succ n ih =>
      cases m with
      | zero =>
          have hnil : rest = [] := List.eq_nil_of_length_eq_zero (Nat.le_zero.mp hm)
          simp [replaySegment, hnil]
      | succ m =>
          simp only [replaySegment]
          split_ifs with hnil htear
          · rfl
          · rfl
          · split
            · rfl
            · -- a record takes at least its header off what remains
              have hpos : 0 < rest.length := List.length_pos_iff.mpr hnil
              refine ih ?_ ?_ <;> rw [List.length_drop] <;> omega

theorem replaySegment_frame {buf : Bytes} {r : Record} (h : readRecord? buf = some r) (offset : Nat) (rest : Bytes)
    (acc : Recovered) :
    replaySegment idx isLast compactedTo (buf ++ rest).length offset (buf ++ rest) acc =
      replaySegment idx isLast compactedTo rest.length (offset + buf.length) rest (acc.push r) := by
  have hsize := length_of_readRecord? h
  obtain ⟨n, hn⟩ : ∃ n, (buf ++ rest).length = n + 1 :=
    Nat.exists_eq_add_one.mpr (by rw [List.length_append]; omega)
  have hne : buf ++ rest ≠ [] := by
    intro hnil; rw [hnil] at hn; simp at hn
  rw [hn, replaySegment, if_neg hne, if_neg (not_isTear_append h rest)]
  simp only [size_append h, List.take_left, List.drop_left, replayRecord_eq_ok.mpr ⟨r, h, rfl⟩]
  refine replaySegment_fuel ?_ le_rfl
  rw [List.length_append] at hn
  omega

/-- **Replay of intact records.** They are taken in, and replay goes on with what follows them. -/
theorem replaySegment_frames {raw : Bytes} {rs : List Record} (h : Frames raw rs) (offset : Nat) (rest : Bytes)
    (acc : Recovered) :
    replaySegment idx isLast compactedTo (raw ++ rest).length offset (raw ++ rest) acc =
      replaySegment idx isLast compactedTo rest.length (offset + raw.length) rest (acc.pushAll rs) := by
  induction h generalizing offset acc with
  | nil => rfl
  | cons hread _ ih =>
      rw [List.append_assoc, replaySegment_frame hread, ih, List.length_append, Nat.add_assoc, Recovered.pushAll_cons]

theorem replaySegment_image {rs : List Record} (h : ∀ r ∈ rs, r.Fits) (offset : Nat) (rest : Bytes)
    (acc : Recovered) :
    replaySegment idx isLast compactedTo (image rs ++ rest).length offset (image rs ++ rest) acc =
      replaySegment idx isLast compactedTo rest.length (offset + (image rs).length) rest
        (acc.pushAll rs) := replaySegment_frames (.image h) offset rest acc

@[simp] theorem replaySegment_nil (n offset : Nat) (acc : Recovered) :
    replaySegment idx isLast compactedTo n offset [] acc = .ok acc := by
  cases n <;> simp [replaySegment]

theorem replaySegment_intact {raw : Bytes} {rs : List Record} (h : Frames raw rs) (offset : Nat)
    (acc : Recovered) :
    replaySegment idx isLast compactedTo raw.length offset raw acc = .ok (acc.pushAll rs) := by
  have h' := @replaySegment_frames idx isLast compactedTo raw rs h offset [] acc
  rwa [List.append_nil, replaySegment_nil] at h'

end WalStorage

/-! ## The log of a directory -/

/-- The records of some segments. -/
def recordsOf (segs : List (Nat × List Record)) : List Record := segs.flatMap Prod.snd

/-- The abstract log: the records of each segment, by first log index. -/
abbrev Log := Assoc (List Record)

namespace Log

/-- The segment files that hold the log. -/
def bytes (log : Log) : Assoc Bytes := log.map image

/-- All records, oldest segment first. -/
def records (log : Log) : List Record := recordsOf log.toList

/-- The entries physically present. -/
def entries (log : Log) : List LogEntry := entriesOf log.records

end Log

/-- The files read as the records of their segments. -/
def Reads (files : List (Nat × Bytes)) (segs : List (Nat × List Record)) : Prop :=
  List.Forall₂ (fun file seg => file.1 = seg.1 ∧ Frames file.2 seg.2) files segs

theorem reads_image {segs : List (Nat × List Record)} (h : ∀ r ∈ recordsOf segs, r.Fits) :
    Reads (segs.map fun p => (p.1, image p.2)) segs := by
  rw [Reads, List.forall₂_map_left_iff, List.forall₂_same]
  intro seg hseg
  exact ⟨rfl, .image fun r hr => h r (List.mem_flatMap.mpr ⟨seg, hseg, hr⟩)⟩

namespace WalStorage

/-- Replay of intact segments: no segment needs to know whether it is the last one. -/
theorem replaySegments_reads {files : List (Nat × Bytes)} {segs : List (Nat × List Record)} (h : Reads files segs)
    (compactedTo : Nat) (rest : List (Nat × Bytes)) (acc : Recovered) :
    replaySegments compactedTo (files ++ rest) acc = replaySegments compactedTo rest (acc.pushAll (recordsOf segs)) := by
  induction h generalizing acc with
  | nil => rfl
  | @cons file seg files segs hfile _ ih =>
      rw [List.cons_append, replaySegments, replaySegment_intact hfile.2]
      show replaySegments compactedTo _ _ = _
      rw [ih]
      show _ = replaySegments compactedTo rest (acc.pushAll (seg.2 ++ recordsOf segs))
      rw [Recovered.pushAll_append]

theorem replaySegments_image {segs : List (Nat × List Record)}
    (h : ∀ r ∈ recordsOf segs, r.Fits) (compactedTo : Nat) (rest : List (Nat × Bytes))
    (acc : Recovered) :
    replaySegments compactedTo (segs.map (fun p => (p.1, image p.2)) ++ rest) acc =
      replaySegments compactedTo rest (acc.pushAll (recordsOf segs)) := replaySegments_reads (reads_image h) compactedTo rest acc

/-- **Recovery of an intact log** gathers its entries and its last hard state, and cuts nothing. -/
theorem recoverWal_reads {dir : Dir} {log : Log} (h : Reads dir.segments.toList log.toList) (compactedTo : Nat) :
    recoverWal dir compactedTo = .ok ⟨log.entries, hardStateOf log.records, 0, []⟩ := by
  have hrep := replaySegments_reads h compactedTo [] .init
  rw [List.append_nil] at hrep
  rw [recoverWal, hrep, replaySegments, Recovered.init_pushAll]
  rfl

theorem recoverWal_bytes {dir : Dir} {log : Log} (hdir : dir.segments = log.bytes)
    (h : ∀ r ∈ log.records, r.Fits) (compactedTo : Nat) :
    recoverWal dir compactedTo = .ok ⟨log.entries, hardStateOf log.records, 0, []⟩ := by
  refine recoverWal_reads ?_ compactedTo
  rw [hdir]
  exact reads_image h

/-! ## The cut point -/

theorem findEntryEnd_fuel {keep : Nat} {n m offset : Nat} {rest : Bytes}
    (hn : rest.length ≤ n) (hm : rest.length ≤ m) :
    findEntryEnd keep n offset rest = findEntryEnd keep m offset rest := by
  induction n generalizing m offset rest with
  | zero =>
      have hnil : rest = [] := List.eq_nil_of_length_eq_zero (Nat.le_zero.mp hn)
      cases m <;> simp [findEntryEnd, hnil]
  | succ n ih =>
      cases m with
      | zero =>
          have hnil : rest = [] := List.eq_nil_of_length_eq_zero (Nat.le_zero.mp hm)
          simp [findEntryEnd, hnil]
      | succ m =>
          simp only [findEntryEnd]
          split_ifs with hshort htear
          · rfl
          · rfl
          · rw [@ih m _ _ ?_ ?_] <;> rw [List.length_drop] <;> omega

/-- One record of the scan: found, or stepped over. -/
theorem findEntryEnd_frame {keep : Nat} {buf : Bytes} {r : Record} (h : readRecord? buf = some r) (offset : Nat)
    (rest : Bytes) :
    findEntryEnd keep (buf ++ rest).length offset (buf ++ rest) =
      if r.entry?.any (·.index.toNat = keep) then some (offset + buf.length)
      else findEntryEnd keep rest.length (offset + buf.length) rest := by
  have hsize := length_of_readRecord? h
  have htear := not_isTear_append h rest
  rw [isTear, not_or] at htear
  obtain ⟨n, hn⟩ : ∃ n, (buf ++ rest).length = n + 1 :=
    Nat.exists_eq_add_one.mpr (by rw [List.length_append]; omega)
  have hfuel : ∀ offset, findEntryEnd keep n offset rest = findEntryEnd keep rest.length offset rest :=
    fun offset => findEntryEnd_fuel (by rw [List.length_append] at hn; omega) le_rfl
  rw [hn, findEntryEnd, if_neg htear.1, if_neg htear.2]
  simp only [size_append h, List.take_left, List.drop_left, hfuel]
  rw [readRecord?] at h
  split at h
  · next hdec =>
      split at h
      · next hentry =>
          obtain rfl := Option.some.inj h
          simp [hdec, hentry, Record.entry?]
      · cases h
  · next hdec =>
      split at h
      · obtain rfl := Option.some.inj h
        simp [hdec, Record.entry?]
      · cases h
  · cases h

theorem findEntryEnd_none {keep : Nat} {raw : Bytes} {rs : List Record} (h : Frames raw rs)
    (hkeep : ∀ e ∈ entriesOf rs, e.index.toNat ≠ keep) (offset : Nat) (rest : Bytes) :
    findEntryEnd keep (raw ++ rest).length offset (raw ++ rest) =
      findEntryEnd keep rest.length (offset + raw.length) rest := by
  induction h generalizing offset with
  | nil => rfl
  | @cons buf raw r rs hread _ ih =>
      have hr : ¬ r.entry?.any (·.index.toNat = keep) := by
        cases r with
        | entry e => simpa [Record.entry?] using hkeep e (by simp)
        | hardState hs => simp [Record.entry?]
      have hrs : ∀ e ∈ entriesOf rs, e.index.toNat ≠ keep := fun e he =>
        hkeep e (by cases r <;> simp [he])
      rw [List.append_assoc, findEntryEnd_frame hread, if_neg hr, ih hrs, List.length_append, Nat.add_assoc]

/-- The scan passes over segments without the entry. -/
theorem findHolding_skip {keep : Nat} {files : List (Nat × Bytes)} {segs : List (Nat × List Record)}
    (h : Reads files segs) (hkeep : ∀ e ∈ entriesOf (recordsOf segs), e.index.toNat ≠ keep)
    (rest : List (Nat × Bytes)) : findHolding keep (files ++ rest) = findHolding keep rest := by
  induction h with
  | nil => rfl
  | @cons file seg files segs hfile _ ih =>
      have hrec : recordsOf (seg :: segs) = seg.2 ++ recordsOf segs := rfl
      rw [hrec, entriesOf_append, List.forall_mem_append] at hkeep
      have hscan := findEntryEnd_none hfile.2 hkeep.1 0 []
      rw [List.append_nil] at hscan
      rw [List.cons_append, findHolding, hscan]
      exact ih hkeep.2

/-- The cut point of an entry whose record no earlier record duplicates: just past that record. -/
theorem findHolding_reads {pre post : List (Nat × Bytes)} {segs : List (Nat × List Record)} {n : Nat}
    {front back : Bytes} {xs : List Record} {e : LogEntry} (hpre : Reads pre segs) (hfront : Frames front (xs ++ [.entry e]))
    (hfirst : ∀ e' ∈ entriesOf (recordsOf segs ++ xs), e'.index.toNat ≠ e.index.toNat) :
    findHolding e.index.toNat (pre ++ (n, front ++ back) :: post) = some (n, front.length) := by
  rw [entriesOf_append, List.forall_mem_append] at hfirst
  obtain ⟨before, buf, rfl, hbefore, hbuf⟩ := hfront.split
  cases hbuf with
  | @cons buf rest _ _ hread hnil =>
      cases hnil
      rw [List.append_nil, findHolding_skip hpre hfirst.1, findHolding, List.append_assoc,
        findEntryEnd_none hbefore hfirst.2, findEntryEnd_frame hread]
      simp [Record.entry?]

theorem findHolding_cut {pre post : List (Nat × List Record)} {n : Nat}
    {xs ys : List Record} {e : LogEntry}
    (h : ∀ r ∈ recordsOf (pre ++ (n, xs ++ .entry e :: ys) :: post), r.Fits)
    (hpre : ∀ e' ∈ entriesOf (recordsOf pre ++ xs), e'.index.toNat ≠ e.index.toNat) :
    findHolding e.index.toNat
        ((pre ++ (n, xs ++ .entry e :: ys) :: post).map fun p => (p.1, image p.2)) =
      some (n, (image (xs ++ [.entry e])).length) := by
  have hrec : recordsOf (pre ++ (n, xs ++ .entry e :: ys) :: post) =
      recordsOf pre ++ ((xs ++ [.entry e]) ++ ys ++ recordsOf post) := by
    simp [recordsOf]
  rw [hrec] at h
  simp only [List.forall_mem_append] at h
  have hsplit : image (xs ++ .entry e :: ys) = image (xs ++ [.entry e]) ++ image ys := by simp
  rw [List.map_append, List.map_cons, hsplit]
  exact findHolding_reads (reads_image h.1) (.image (List.forall_mem_append.mpr h.2.1.1)) hpre

end WalStorage

/-! ## Reading records back -/

/-- The records a segment starts with, up to the first tear or damaged record. -/
def readRecords : Nat → Bytes → List Record
  | 0, _ => []
  | fuel + 1, rest =>
    if isTear rest then []
    else
      let size := 8 + leNat (rest.take 4)
      match readRecord? (rest.take size) with
      | none => []
      | some r => r :: readRecords fuel (rest.drop size)

/-- The log a directory holds. -/
def Dir.log (d : Dir) : Log := d.segments.map fun raw => readRecords raw.length raw

theorem readRecords_frames {raw : Bytes} {rs : List Record} (h : Frames raw rs) {n : Nat} (hn : raw.length ≤ n) :
    readRecords n raw = rs := by
  induction h generalizing n with
  | nil => cases n <;> simp [readRecords, isTear]
  | @cons buf rest r rs hread _ ih =>
      have hsize := length_of_readRecord? hread
      rw [List.length_append] at hn
      obtain ⟨n, rfl⟩ : ∃ m, n = m + 1 := Nat.exists_eq_add_one.mpr (by omega)
      rw [readRecords, if_neg (not_isTear_append hread _)]
      simp only [size_append hread, List.take_left, List.drop_left, hread, ih (show rest.length ≤ n by omega)]

/-- A directory whose files read as a log holds that log. -/
theorem Dir.log_of_reads {d : Dir} {log : Log} (h : Reads d.segments.toList log.toList) : d.log = log := by
  ext1
  rw [Dir.log, Assoc.toList_map]
  refine List.forall₂_eq_eq_eq ▸ List.forall₂_map_left_iff.mpr (h.imp fun file seg hfile => ?_)
  rw [readRecords_frames hfile.2 le_rfl, hfile.1]

/-- A directory that holds the bytes of a log holds that log. -/
theorem Dir.log_eq {d : Dir} {log : Log} (hd : d.segments = log.bytes)
    (h : ∀ r ∈ log.records, r.Fits) : d.log = log := by
  refine Dir.log_of_reads ?_
  rw [hd]
  exact reads_image h

end Arachne.Storage
