import Arachne.Codec.Stream
import Arachne.Storage.Gapless

/-! # Opening a log that ends in a tear

What `open` does with segments that hold intact records up to some point, and from there on bytes that a
record does not fit into. Whatever made them so, a crash that cut the file or a damaged length field, replay
has taken in the records before (`recoverWal_damaged`) and treats the rest as a tear: in the last segment and
beyond the commit window it is cut off, and the records before it decide what the store opens as
(`openDir_torn_eq_ok`). -/

namespace Arachne.Storage

open Codec (Bytes)
open WalStorage

/-- What replay has gathered from the records `rs`. -/
def gathered (rs : List Record) : Recovered := ⟨entriesOf rs, hardStateOf rs, 0, []⟩

/-! ## Replay up to the tear -/

/-- The records that end at or before byte `p` of segment `n`, in that segment and the ones before it. -/
def Log.recordsBefore (log : Log) (n p : Nat) : List Record :=
  recordsOf (log.toList.filter (·.1 < n)) ++ Codec.framesWithin Record.encode p ((log.get? n).getD [])

theorem Log.recordsBefore_eq {log : Log} {pre post : List (Nat × List Record)} {n : Nat} {rs : List Record}
    (hlog : log.toList = pre ++ (n, rs) :: post) (p : Nat) :
    log.recordsBefore n p = recordsOf pre ++ Codec.framesWithin Record.encode p rs := by
  obtain ⟨hpre, hpost⟩ := Assoc.lt_of_toList_eq hlog
  have hfilter : log.toList.filter (·.1 < n) = pre := by
    rw [hlog, List.filter_append, List.filter_eq_self.mpr (by simpa using hpre),
      List.filter_eq_nil_iff.mpr, List.append_nil]
    intro x hx
    rcases List.mem_cons.mp hx with rfl | hx
    · simp
    · have := hpost x hx
      simp only [decide_eq_true_eq]
      omega
  rw [recordsBefore, hfilter, Assoc.get?_of_toList_eq hlog, Option.getD_some]

variable {pre : List (Nat × List Record)} {n : Nat} {xs : List Record} {rest : Bytes}

/-- **Replay of damaged segments** takes in the intact records and goes on with what follows them. -/
theorem recoverWal_damaged {dir : Dir} {post : List (Nat × Bytes)}
    (hseg : dir.segments.toList =
      pre.map (fun p => (p.1, image p.2)) ++ (n, image xs ++ rest) :: post)
    (hfits : ∀ r ∈ recordsOf pre ++ xs, r.Fits) (compactedTo : Nat) :
    recoverWal dir compactedTo =
      match replaySegment n post.isEmpty compactedTo rest.length (image xs).length rest
          (gathered (recordsOf pre ++ xs)) with
      | .error e => .error e
      | .ok acc => replaySegments compactedTo post acc := by
  rw [List.forall_mem_append] at hfits
  rw [recoverWal, hseg, replaySegments_image hfits.1, replaySegments, replaySegment_image hfits.2, Nat.zero_add,
    ← Recovered.pushAll_append, Recovered.init_pushAll]
  rfl

theorem replaySegment_tear {isLast : Bool} {compactedTo offset : Nat} (acc : Recovered) (hne : rest ≠ [])
    (htear : isTear rest) :
    replaySegment n isLast compactedTo rest.length offset rest acc =
      replayTear n isLast compactedTo offset acc := by
  obtain ⟨b, bs, rfl⟩ := List.exists_cons_of_ne_nil hne
  rw [List.length_cons, replaySegment, if_neg hne, if_pos htear]

/-- A tear is cut off only in the last segment, beyond the commit window. -/
theorem replayTear_eq_ok {isLast : Bool} {compactedTo offset : Nat} {acc acc' : Recovered} :
    replayTear n isLast compactedTo offset acc = .ok acc' ↔
      isLast = true ∧ acc.hardState.commit.toNat + 1 < estimatedIndex compactedTo acc ∧
        acc' = { acc with
          truncatedRecords := acc.truncatedRecords + 1
          steps := acc.steps ++ [.truncateSegment n offset] } := by
  simp only [replayTear]
  split_ifs with hlast hwindow
  · exact ⟨fun h => (nomatch h), fun h => absurd h.2.1 (Nat.not_lt.mpr hwindow)⟩
  · constructor
    · intro h
      exact ⟨hlast, Nat.not_le.mp hwindow, (Except.ok.inj h).symm⟩
    · rintro ⟨-, -, rfl⟩
      rfl
  · exact ⟨fun h => (nomatch h), fun h => absurd h.1 hlast⟩

/-! ## Opening -/

/-- The tear behind the records `rs` is beyond the commit window. -/
def BeyondWindow (mark : Nat) (rs : List Record) : Prop :=
  (hardStateOf rs).commit.toNat + 1 < estimatedIndex mark (gathered rs)

instance (mark : Nat) (rs : List Record) : Decidable (BeyondWindow mark rs) :=
  inferInstanceAs (Decidable (_ < _))

/-- Beyond the window, the commit is within what is left. -/
theorem BeyondWindow.commit_le {mark : Nat} {rs : List Record} (h : BeyondWindow mark rs)
    (hjoins : Joins (entriesOf rs) mark) :
    (hardStateOf rs).commit.toNat ≤
      (lastEntryIndex? ((entriesOf rs).filter (mark < ·.index.toNat))).getD mark := by
  rw [hjoins.gapless.lastIndex_above]
  rw [BeyondWindow, estimatedIndex, gathered] at h
  cases hlast : lastEntryIndex? (entriesOf rs) with
  | none =>
      simp only [hlast, Option.map_none, Option.getD_none] at h ⊢
      omega
  | some last =>
      simp only [hlast, Option.map_some, Option.getD_some] at h ⊢
      omega

/-- What is left of a directory after the tear in segment `n` was cut off. -/
def Dir.cutSegment (d : Dir) (n offset : Nat) : Dir :=
  { d with segments := d.segments.modify n (·.take offset) }

theorem Dir.cutSegment_cutSegment (d : Dir) {n offset k : Nat} (h : offset ≤ k) :
    (d.cutSegment n k).cutSegment n offset = d.cutSegment n offset := by
  simp only [cutSegment, Assoc.modify_modify, List.take_take, Nat.min_eq_left h]

/-- What replay has gathered once the tear behind the records `rs` was cut off. -/
def cutOff (rs : List Record) (n offset : Nat) : Recovered :=
  { gathered rs with truncatedRecords := 1, steps := [.truncateSegment n offset] }

variable {opts : WalOptions} {dir : Dir} {metaRecord : Meta} {snapshot : Option Snapshot}

/-- The store a torn log opens as. -/
def openedTorn (opts : WalOptions) (dir : Dir) (metaRecord : Meta) (n offset : Nat) (rs : List Record)
    (entries : List LogEntry) : WalStorage :=
  assemble opts (dir.cutSegment n offset) [.truncateSegment n offset] metaRecord
    (loadSnapshot dir metaRecord.snapshotIndex) (cutOff rs n offset) entries

/-- An open that fails in replay has changed nothing. -/
theorem openDir_of_recoverWal (hsnap : Loads opts dir.metaFile dir.snapshots metaRecord snapshot)
    {e : StorageError} (hrec : recoverWal dir (watermark snapshot) = .error e) :
    openDir dir opts = (dir, .error e) := by
  simp only [openDir, hsnap.recoverMeta_eq, FsStep.runAll_nil, hsnap.watermark_load, hrec]

section Open

variable (hsnap : Loads opts dir.metaFile dir.snapshots metaRecord snapshot)
  (hseg : dir.segments.toList = pre.map (fun p => (p.1, image p.2)) ++ [(n, image xs ++ rest)])
  (hfits : ∀ r ∈ recordsOf pre ++ xs, r.Fits) (hne : rest ≠ []) (htear : isTear rest)

include hseg hfits hne htear in
theorem recoverWal_torn (compactedTo : Nat) : recoverWal dir compactedTo =
    replayTear n true compactedTo (image xs).length (gathered (recordsOf pre ++ xs)) := by
  rw [recoverWal_damaged hseg hfits, List.isEmpty_nil, replaySegment_tear _ hne htear]
  cases replayTear n true compactedTo (image xs).length (gathered (recordsOf pre ++ xs)) <;> rfl

include hsnap hseg hfits hne htear in
/-- A tear within the commit window stops the open before anything is changed. -/
theorem openDir_torn_within (hwin : ¬ BeyondWindow (watermark snapshot) (recordsOf pre ++ xs)) :
    ∃ e, openDir dir opts = (dir, .error e) := by
  have hrec := recoverWal_torn hseg hfits hne htear (watermark snapshot)
  cases htorn : replayTear n true (watermark snapshot) (image xs).length (gathered (recordsOf pre ++ xs)) with
  | error e => exact ⟨e, openDir_of_recoverWal hsnap (hrec.trans htorn)⟩
  | ok acc => exact absurd (replayTear_eq_ok.mp htorn).2.1 hwin

include hsnap hseg hfits hne htear in
/-- Beyond the window the tear is cut off and the records before it are checked. -/
theorem openDir_torn_beyond (hwin : BeyondWindow (watermark snapshot) (recordsOf pre ++ xs)) :
    (openDir dir opts).2 =
      (checkRecovered metaRecord (loadSnapshot dir metaRecord.snapshotIndex) (watermark snapshot)
          (cutOff (recordsOf pre ++ xs) n (image xs).length)).map
        (openedTorn opts dir metaRecord n (image xs).length (recordsOf pre ++ xs)) := by
  have hrec : recoverWal dir (watermark snapshot) =
      .ok (cutOff (recordsOf pre ++ xs) n (image xs).length) :=
    (recoverWal_torn hseg hfits hne htear _).trans (replayTear_eq_ok.mpr ⟨rfl, hwin, rfl⟩)
  simp only [openDir, hsnap.recoverMeta_eq, FsStep.runAll_nil, hsnap.watermark_load, hrec]
  cases checkRecovered metaRecord (loadSnapshot dir metaRecord.snapshotIndex) (watermark snapshot)
    (cutOff (recordsOf pre ++ xs) n (image xs).length) <;> rfl

include hsnap hseg hfits hne htear in
/-- **Opening a torn log** succeeds exactly if the tear is beyond the commit window and the entries before
it have no gap. -/
theorem openDir_torn_eq_ok {t : WalStorage} : (openDir dir opts).2 = .ok t ↔
    BeyondWindow (watermark snapshot) (recordsOf pre ++ xs) ∧
      Joins (entriesOf (recordsOf pre ++ xs)) (watermark snapshot) ∧
      t = openedTorn opts dir metaRecord n (image xs).length (recordsOf pre ++ xs)
        ((entriesOf (recordsOf pre ++ xs)).filter (watermark snapshot < ·.index.toNat)) := by
  constructor
  · intro hok
    by_cases hwin : BeyondWindow (watermark snapshot) (recordsOf pre ++ xs)
    · rw [openDir_torn_beyond hsnap hseg hfits hne htear hwin] at hok
      obtain ⟨entries, hcheck, ht⟩ := Transition.map_eq_ok.mp hok
      obtain ⟨-, hjoins, -, rfl⟩ := checkRecovered_eq_ok.mp hcheck
      exact ⟨hwin, hjoins, ht.symm⟩
    · obtain ⟨e, herr⟩ := openDir_torn_within hsnap hseg hfits hne htear hwin
      rw [herr] at hok
      cases hok
  · rintro ⟨hwin, hjoins, rfl⟩
    rw [openDir_torn_beyond hsnap hseg hfits hne htear hwin]
    refine Transition.map_eq_ok.mpr
      ⟨_, checkRecovered_eq_ok.mpr ⟨?_, hjoins, hwin.commit_le hjoins, rfl⟩, rfl⟩
    intro h0 hnone
    exact absurd hnone (hsnap.load_eq_none h0)

end Open

end Arachne.Storage
