import Arachne.Data.Assoc

/-! # Files with a durable prefix

A disk of numbered files that are written at the end. Of each file a prefix is *synced*: a crash keeps at least that
much of it (`Disk.CrashesTo`). A file has an inode besides its name, because a descriptor keeps referring to the file
it was opened on when the name is unlinked and used again.

`Clean U` says that no element in `U` is waiting to be synced, `Confined U` that only the last file can have such
elements. How each operation affects the two is all that is needed to follow them through a program. -/

universe u

/-- A file: what was written to it, and how much of it is synced. -/
structure DiskFile (α : Type u) where
  inode : Nat
  content : List α
  synced : Nat
  synced_le : synced ≤ content.length
  deriving DecidableEq

namespace DiskFile

variable {α : Type u}

def create (inode : Nat) : DiskFile α := ⟨inode, [], 0, Nat.le_refl _⟩

def append (f : DiskFile α) (xs : List α) : DiskFile α where
  inode := f.inode
  content := f.content ++ xs
  synced := f.synced
  synced_le := by rw [List.length_append]; exact Nat.le_add_right_of_le f.synced_le

def truncate (f : DiskFile α) (n : Nat) : DiskFile α where
  inode := f.inode
  content := f.content.take n
  synced := min n f.synced
  synced_le := by
    rw [List.length_take]
    exact Nat.le_min.mpr ⟨Nat.min_le_left _ _, Nat.le_trans (Nat.min_le_right _ _) f.synced_le⟩

/-- A completed sync covers everything written before it. -/
def sync (f : DiskFile α) : DiskFile α where
  inode := f.inode
  content := f.content
  synced := f.content.length
  synced_le := Nat.le_refl _

theorem inode_append (f : DiskFile α) (xs : List α) : (f.append xs).inode = f.inode := rfl

theorem inode_truncate (f : DiskFile α) (n : Nat) : (f.truncate n).inode = f.inode := rfl

theorem inode_sync (f : DiskFile α) : f.sync.inode = f.inode := rfl

/-- What a crash may lose. -/
def unsynced (f : DiskFile α) : List α := f.content.drop f.synced

/-- Nothing in `U` can be lost. -/
def Clean (U : α → Prop) (f : DiskFile α) : Prop := ∀ x ∈ f.unsynced, ¬ U x

variable {U : α → Prop} {f : DiskFile α}

theorem unsynced_sync (f : DiskFile α) : f.sync.unsynced = [] := List.drop_length

theorem clean_create (inode : Nat) : (create inode : DiskFile α).Clean U :=
  fun _ hx => absurd hx List.not_mem_nil

theorem clean_sync (f : DiskFile α) : f.sync.Clean U := by
  intro x hx
  rw [unsynced_sync] at hx
  exact absurd hx List.not_mem_nil

theorem unsynced_append (f : DiskFile α) (xs : List α) : (f.append xs).unsynced = f.unsynced ++ xs :=
  List.drop_append_of_le_length f.synced_le

theorem mem_unsynced_truncate {n : Nat} {x : α} (hx : x ∈ (f.truncate n).unsynced) : x ∈ f.unsynced := by
  replace hx : x ∈ (f.content.take n).drop (min n f.synced) := hx
  by_cases hn : n ≤ f.synced
  · rw [Nat.min_eq_left hn, List.drop_take_self] at hx
    exact absurd hx List.not_mem_nil
  · rw [Nat.min_eq_right (Nat.le_of_not_le hn), List.drop_take] at hx
    exact List.mem_of_mem_take hx

theorem Clean.truncate (h : f.Clean U) (n : Nat) : (f.truncate n).Clean U :=
  fun x hx => h x (mem_unsynced_truncate hx)

/-- With everything of interest, clean is wholly synced. -/
theorem clean_true : (f.Clean fun _ => True) ↔ f.synced = f.content.length := by
  constructor
  · intro h
    have hnil : f.unsynced = [] := List.eq_nil_iff_forall_not_mem.mpr fun x hx => h x hx trivial
    exact Nat.le_antisymm f.synced_le (List.drop_eq_nil_iff.mp hnil)
  · intro h x hx
    rw [unsynced, h, List.drop_length] at hx
    exact absurd hx List.not_mem_nil

/-- A wholly synced file survives. -/
theorem take_of_clean (h : f.Clean fun _ => True) {n : Nat} (hn : f.synced ≤ n) : f.content.take n = f.content :=
  List.take_of_length_le (clean_true.mp h ▸ hn)

end DiskFile

/-- Numbered files. Inodes are handed out in ascending order and not used again. -/
structure Disk (α : Type u) where
  files : Assoc (DiskFile α)
  nextInode : Nat
  inode_lt : ∀ p ∈ files.toList, p.2.inode < nextInode
  deriving DecidableEq

namespace Disk

variable {α : Type u}

/-! ## Operations -/

/-- Change a file in place. -/
def modify (d : Disk α) (n : Nat) (f : DiskFile α → DiskFile α) (hf : ∀ x, (f x).inode = x.inode) : Disk α where
  files := d.files.modify n f
  nextInode := d.nextInode
  inode_lt := by
    intro p hp
    obtain ⟨q, hq, rfl⟩ := List.mem_map.mp hp
    split_ifs
    · exact hf q.2 ▸ d.inode_lt q hq
    · exact d.inode_lt q hq

/-- Open a file, creating it if there is none. -/
def create (d : Disk α) (n : Nat) : Disk α :=
  if n ∈ d.files.keys then d
  else
    { files := d.files.insertNew n (.create d.nextInode)
      nextInode := d.nextInode + 1
      inode_lt := by
        intro p hp
        rcases Assoc.mem_insertNew hp with rfl | hp
        · exact Nat.lt_succ_self _
        · exact Nat.lt_succ_of_lt (d.inode_lt p hp) }

def append (d : Disk α) (n : Nat) (xs : List α) : Disk α := d.modify n (·.append xs) (·.inode_append xs)

def truncate (d : Disk α) (n offset : Nat) : Disk α := 
  d.modify n (·.truncate offset) (·.inode_truncate offset)

def sync (d : Disk α) (n : Nat) : Disk α := d.modify n DiskFile.sync DiskFile.inode_sync

/-- Sync the file behind a descriptor; nothing happens if it is no longer linked. -/
def syncInode (d : Disk α) (inode : Nat) : Disk α where
  files := d.files.map fun f => if f.inode = inode then f.sync else f
  nextInode := d.nextInode
  inode_lt := by
    intro p hp
    obtain ⟨q, hq, rfl⟩ := List.mem_map.mp hp
    show (if q.2.inode = inode then q.2.sync else q.2).inode < d.nextInode
    split_ifs <;> exact d.inode_lt q hq

def remove (d : Disk α) (n : Nat) : Disk α where
  files := d.files.erase n
  nextInode := d.nextInode
  inode_lt := fun p hp => d.inode_lt p (List.mem_of_mem_filter hp)

/-- A disk with the given files, all of them synced. -/
def ofSynced (m : Assoc (List α)) : Disk α where
  files :=
    { toList := m.toList.zipIdx.map fun p => (p.1.1, ⟨p.2, p.1.2, p.1.2.length, Nat.le_refl _⟩)
      ascending := by
        have hkeys : (m.toList.zipIdx.map fun p : (Nat × List α) × Nat => p.1.1) = m.toList.map Prod.fst := by
          rw [← List.zipIdx_map_fst 0 m.toList, List.map_map, List.zipIdx_map_fst]
          rfl
        rw [List.map_map]
        exact hkeys ▸ m.ascending }
  nextInode := m.toList.length
  inode_lt := by
    intro p hp
    obtain ⟨q, hq, rfl⟩ := List.mem_map.mp hp
    simpa using List.snd_lt_of_mem_zipIdx hq

/-- What the files hold. -/
def contents (d : Disk α) : Assoc (List α) := d.files.map DiskFile.content

/-- A crash may leave the files like this: of each one some prefix is left that includes what was synced. -/
def CrashesTo (d : Disk α) (image : Assoc (List α)) : Prop :=
  image.keys = d.files.keys ∧
    ∀ p ∈ d.files.toList, ∃ n, p.2.synced ≤ n ∧ image.get? p.1 = some (p.2.content.take n)

/-- A crash may lose everything that is not synced. -/
theorem crashesTo_synced (d : Disk α) : d.CrashesTo (d.files.map fun f => f.content.take f.synced) := by
  refine ⟨Assoc.keys_map _ _, fun p hp => ⟨p.2.synced, Nat.le_refl _, ?_⟩⟩
  have hmem : (p.1, p.2.content.take p.2.synced) ∈ (d.files.map fun f => f.content.take f.synced).toList :=
    List.mem_map_of_mem hp
  exact Assoc.get?_of_mem hmem

/-! ## What is waiting to be synced -/

/-- Nothing in `U` can be lost. -/
def Clean (U : α → Prop) (d : Disk α) : Prop := ∀ p ∈ d.files.toList, p.2.Clean U

/-- What can be lost of `U` is in the last file. -/
def Confined (U : α → Prop) (d : Disk α) : Prop :=
  ∀ p ∈ d.files.toList, ∀ k ∈ d.files.keys, p.1 < k → p.2.Clean U

variable {U : α → Prop} {d : Disk α} {n : Nat}

theorem Clean.confined (h : Clean U d) : Confined U d := fun p hp _ _ _ => h p hp

theorem contents_ofSynced (m : Assoc (List α)) : (ofSynced m).contents = m := by
  refine Assoc.ext ?_
  rw [contents, ofSynced, Assoc.toList_map, List.map_map]
  exact List.zipIdx_map_fst 0 m.toList

theorem clean_ofSynced (m : Assoc (List α)) : Clean U (ofSynced m) := by
  intro p hp
  obtain ⟨q, -, rfl⟩ := List.mem_map.mp hp
  exact DiskFile.clean_sync ⟨q.2, q.1.2, q.1.2.length, Nat.le_refl _⟩

/-- A new file has nothing to lose. -/
theorem Clean.create (h : Clean U d) (n : Nat) : Clean U (d.create n) := by
  rw [Disk.create]
  split_ifs with hmem
  · exact h
  · intro p hp
    rcases Assoc.mem_insertNew hp with rfl | hp
    · exact DiskFile.clean_create _
    · exact h p hp

theorem mem_modify {f : DiskFile α → DiskFile α} {hf : ∀ x, (f x).inode = x.inode} {p : Nat × DiskFile α}
    (hp : p ∈ (d.modify n f hf).files.toList) :
    ∃ q ∈ d.files.toList, p.1 = q.1 ∧ ((q.1 = n ∧ p.2 = f q.2) ∨ (q.1 ≠ n ∧ p.2 = q.2)) := by
  obtain ⟨q, hq, rfl⟩ := List.mem_map.mp hp
  refine ⟨q, hq, ?_⟩
  split_ifs with hqn
  · exact ⟨rfl, .inl ⟨hqn, rfl⟩⟩
  · exact ⟨rfl, .inr ⟨hqn, rfl⟩⟩

@[simp] theorem keys_modify (d : Disk α) (n : Nat) (f : DiskFile α → DiskFile α) (hf : ∀ x, (f x).inode = x.inode) :
    (d.modify n f hf).files.keys = d.files.keys := Assoc.keys_modify _ _ _

theorem Confined.modify (h : Confined U d) {f : DiskFile α → DiskFile α} {hf : ∀ x, (f x).inode = x.inode}
    (hclean : ∀ x, x.Clean U → (f x).Clean U) : Confined U (d.modify n f hf) := by
  intro p hp k hk hlt
  rw [keys_modify] at hk
  obtain ⟨q, hq, hname, ⟨-, heq⟩ | ⟨-, heq⟩⟩ := mem_modify hp
  · exact heq ▸ hclean _ (h q hq k hk (hname ▸ hlt))
  · exact heq ▸ h q hq k hk (hname ▸ hlt)

/-- Writing to the last file. -/
theorem Confined.append (h : Confined U d) (hlast : ∀ k ∈ d.files.keys, k ≤ n) (xs : List α) :
    Confined U (d.append n xs) := by
  intro p hp k hk hlt
  rw [Disk.append, keys_modify] at hk
  obtain ⟨q, hq, hname, ⟨hn, -⟩ | ⟨-, heq⟩⟩ := mem_modify hp
  · exact absurd (hlast k hk) (Nat.not_le.mpr (hn ▸ hname ▸ hlt))
  · exact heq ▸ h q hq k hk (hname ▸ hlt)

theorem Confined.truncate (h : Confined U d) (n offset : Nat) : Confined U (d.truncate n offset) :=
  h.modify fun _ hx => hx.truncate offset

theorem Confined.sync (h : Confined U d) (n : Nat) : Confined U (d.sync n) :=
  h.modify fun x _ => x.clean_sync

/-- Syncing a file leaves nothing up to it. -/
theorem Confined.clean_sync_le (h : Confined U d) (hmem : n ∈ d.files.keys) {p : Nat × DiskFile α}
    (hp : p ∈ (d.sync n).files.toList) (hle : p.1 ≤ n) : p.2.Clean U := by
  obtain ⟨q, hq, hname, ⟨-, heq⟩ | ⟨hne, heq⟩⟩ := @mem_modify _ _ _ _ DiskFile.inode_sync _ hp
  · exact heq ▸ q.2.clean_sync
  · exact heq ▸ h q hq n hmem (Nat.lt_of_le_of_ne (hname ▸ hle) hne)

/-- Syncing the last file leaves nothing. -/
theorem Confined.clean_sync (h : Confined U d) (hmem : n ∈ d.files.keys) (hlast : ∀ k ∈ d.files.keys, k ≤ n) :
    Clean U (d.sync n) := by
  intro p hp
  apply h.clean_sync_le hmem hp
  rw [← keys_modify d n _ DiskFile.inode_sync] at hlast
  exact hlast p.1 (List.mem_map_of_mem hp)

theorem Confined.remove (h : Confined U d) (n : Nat) : Confined U (d.remove n) := by
  intro p hp k hk hlt
  obtain ⟨q, hq, rfl⟩ := List.mem_map.mp hk
  exact h p (List.mem_of_mem_filter hp) q.1 (List.mem_map_of_mem (List.mem_of_mem_filter hq)) hlt

theorem mem_syncInode {inode : Nat} {p : Nat × DiskFile α} (hp : p ∈ (d.syncInode inode).files.toList) :
    ∃ q ∈ d.files.toList, p.1 = q.1 ∧ ((q.2.inode = inode ∧ p.2 = q.2.sync) ∨ (q.2.inode ≠ inode ∧ p.2 = q.2)) := by
  obtain ⟨q, hq, rfl⟩ := List.mem_map.mp hp
  refine ⟨q, hq, rfl, ?_⟩
  dsimp only
  split_ifs with hqn
  · exact .inl ⟨hqn, rfl⟩
  · exact .inr ⟨hqn, rfl⟩

/-- What is still unsynced is in a file that the sync did not reach. -/
theorem mem_of_unsynced_syncInode {inode : Nat} {p : Nat × DiskFile α} (hp : p ∈ (d.syncInode inode).files.toList)
    (hne : p.2.unsynced ≠ []) : p ∈ d.files.toList ∧ p.2.inode ≠ inode := by
  obtain ⟨q, hq, hname, ⟨-, heq⟩ | ⟨hinode, heq⟩⟩ := mem_syncInode hp
  · rw [heq, DiskFile.unsynced_sync] at hne
    exact absurd rfl hne
  · obtain rfl : p = q := Prod.ext hname heq
    exact ⟨hq, hinode⟩

@[simp] theorem keys_syncInode (d : Disk α) (inode : Nat) : (d.syncInode inode).files.keys = d.files.keys :=
  Assoc.keys_map _ _

theorem Clean.syncInode (h : Clean U d) (inode : Nat) : Clean U (d.syncInode inode) := by
  intro p hp
  obtain ⟨q, hq, -, ⟨-, heq⟩ | ⟨-, heq⟩⟩ := mem_syncInode hp
  · exact heq ▸ q.2.clean_sync
  · exact heq ▸ h q hq

theorem Confined.syncInode (h : Confined U d) (inode : Nat) : Confined U (d.syncInode inode) := by
  intro p hp k hk hlt
  rw [keys_syncInode] at hk
  obtain ⟨q, hq, hname, ⟨-, heq⟩ | ⟨-, heq⟩⟩ := mem_syncInode hp
  · exact heq ▸ q.2.clean_sync
  · exact heq ▸ h q hq k hk (hname ▸ hlt)

/-- **After a crash** every file with a later one is whole, if what can be lost was confined to the last one. -/
theorem Confined.crash (h : Confined (fun _ => True) d) {image : Assoc (List α)} (himage : d.CrashesTo image)
    {p : Nat × DiskFile α} (hp : p ∈ d.files.toList) {k : Nat} (hk : k ∈ d.files.keys) (hlt : p.1 < k) :
    image.get? p.1 = some p.2.content := by
  obtain ⟨n, hn, hget⟩ := himage.2 p hp
  rw [hget, DiskFile.take_of_clean (h p hp k hk hlt) hn]

end Disk
