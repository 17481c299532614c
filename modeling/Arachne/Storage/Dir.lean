import Mathlib.Data.List.Sort
import Arachne.Data.Assoc
import Arachne.Storage.Types

/-! # The data directory

The files of a store, and the file-system steps that change them. `META`, the `membership` file and
the snapshot files are only ever replaced whole (written to a temporary file, synced, renamed), so each
is its decoded content. The `wal-*.log` segments are written in place and are byte strings.

A step is one call whose effect on the directory is atomic. The store keeps the steps it has made in a
journal: a crash between two steps leaves the directory with a prefix of them (`FsStep.runAll`). -/

namespace Arachne.Storage

open Codec (Bytes)

/-- A snapshot file: the index and term its name carries, and its content (`none` if
`decode_snapshot` rejects the bytes). -/
structure SnapshotFile where
  index : UInt64
  term : UInt64
  content : Option Snapshot
  deriving DecidableEq, Repr

/-- The order the directory scans sort snapshot files in: newest index first. -/
def SnapshotFile.NewerEq (f g : SnapshotFile) : Prop := g.index ≤ f.index

instance : DecidableRel SnapshotFile.NewerEq := fun f g => inferInstanceAs (Decidable (g.index ≤ f.index))

instance : Std.Total SnapshotFile.NewerEq := ⟨fun f g => UInt64.le_total g.index f.index⟩

instance : IsTrans SnapshotFile SnapshotFile.NewerEq := ⟨fun _ _ _ h h' => UInt64.le_trans h' h⟩

/-- A data directory. Segments are listed by first index, snapshot files newest first. -/
structure Dir where
  metaFile : Option Meta
  snapshots : List SnapshotFile
  newestFirst : snapshots.Pairwise SnapshotFile.NewerEq
  membership : Option (UInt64 × ConfState)
  segments : Assoc Bytes
  deriving DecidableEq

namespace Dir

/-- The directory before a store was ever opened in it. -/
def empty : Dir where
  metaFile := none
  snapshots := []
  newestFirst := .nil
  membership := none
  segments := .empty

/-- `list_segment_indices`. -/
def listSegmentIndices (d : Dir) : List Nat := d.segments.keys

/-- The size of a segment file, 0 if there is none. -/
def segmentSize (d : Dir) (n : Nat) : Nat := ((d.segments.get? n).getD []).length

/-- Rename a completed temporary file to the snapshot's name, replacing what had that name. -/
def renameSnapshot (d : Dir) (snapshot : Snapshot) : Dir :=
  let file : SnapshotFile :=
    { index := snapshot.metadata.index, term := snapshot.metadata.term, content := some snapshot }
  let others := d.snapshots.filter fun f => ¬ (f.index = file.index ∧ f.term = file.term)
  { d with
    snapshots := others.orderedInsert SnapshotFile.NewerEq file
    newestFirst := (d.newestFirst.sublist List.filter_sublist).orderedInsert file _ }

def removeSnapshot (d : Dir) (index term : UInt64) : Dir :=
  { d with
    snapshots := d.snapshots.filter fun f => ¬ (f.index = index ∧ f.term = term)
    newestFirst := d.newestFirst.sublist List.filter_sublist }

end Dir

/-- A file-system call of the store. -/
inductive FsStep where
  | writeMeta (m : Meta)
  | renameSnapshot (snapshot : Snapshot)
  | removeSnapshot (index term : UInt64)
  | writeMembership (index : UInt64) (confState : ConfState)
  | createSegment (n : Nat)
  | appendSegment (n : Nat) (bytes : Bytes)
  | truncateSegment (n : Nat) (offset : Nat)
  | syncSegment (n : Nat)
  | removeSegment (n : Nat)
  deriving DecidableEq, Repr

namespace FsStep

/-- What a call does to the directory. Creating opens the file if it exists; syncing changes no
content. -/
def run (d : Dir) : FsStep → Dir
  | .writeMeta m => { d with metaFile := some m }
  | .renameSnapshot snapshot => d.renameSnapshot snapshot
  | .removeSnapshot index term => d.removeSnapshot index term
  | .writeMembership index confState => { d with membership := some (index, confState) }
  | .createSegment n => { d with segments := d.segments.insertNew n [] }
  | .appendSegment n bytes => { d with segments := d.segments.modify n (· ++ bytes) }
  | .truncateSegment n offset => { d with segments := d.segments.modify n (·.take offset) }
  | .syncSegment _ => d
  | .removeSegment n => { d with segments := d.segments.erase n }

def runAll (d : Dir) (steps : List FsStep) : Dir := steps.foldl run d

@[simp] theorem runAll_nil (d : Dir) : runAll d [] = d := rfl

theorem runAll_append (d : Dir) (xs ys : List FsStep) :
    runAll d (xs ++ ys) = runAll (runAll d xs) ys := List.foldl_append

/-- Calls that leave the segments alone, one by one, leave them alone. -/
theorem segments_runAll {steps : List FsStep} (h : ∀ step ∈ steps, ∀ d, (run d step).segments = d.segments)
    (d : Dir) : (runAll d steps).segments = d.segments := by
  induction steps generalizing d with
  | nil => rfl
  | cons step steps ih =>
      rw [List.forall_mem_cons] at h
      exact (ih h.2 (run d step)).trans (h.1 d)

/-- Unlinking a list of segments changes nothing else. -/
theorem runAll_removeSegments (d : Dir) (ns : List Nat) :
    runAll d (ns.map .removeSegment) = { d with segments := d.segments.eraseAll ns } := by
  induction ns generalizing d with
  | nil => rfl
  | cons n ns ih => exact ih { d with segments := d.segments.erase n }

/-- Deleting a list of snapshot files keeps the others, and changes nothing else. -/
theorem runAll_removeSnapshots (d : Dir) (fs : List SnapshotFile) :
    ∃ files newestFirst,
      runAll d (fs.map fun f => .removeSnapshot f.index f.term) = { d with snapshots := files, newestFirst } ∧
      files = d.snapshots.filter fun f => ∀ g ∈ fs, ¬ (f.index = g.index ∧ f.term = g.term) := by
  induction fs generalizing d with
  | nil => exact ⟨d.snapshots, d.newestFirst, rfl, by simp⟩
  | cons g fs ih =>
      obtain ⟨files, hnewest, hrun, hfiles⟩ := ih (d.removeSnapshot g.index g.term)
      refine ⟨files, hnewest, hrun, hfiles.trans ?_⟩
      rw [Dir.removeSnapshot, List.filter_filter]
      refine List.filter_congr fun f _ => ?_
      rw [← Bool.decide_and, decide_eq_decide, List.forall_mem_cons, and_comm]

end FsStep

end Arachne.Storage
