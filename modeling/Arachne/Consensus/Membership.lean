import Arachne.Forward.Write
import Arachne.Storage.Crash

/-! # Recovering the membership

A member's configuration is in three places: raft's progress tracker, the membership file (or the member table of the
newest snapshot) and the log, which is the authority. `apply_conf_change` hands a committed change to raft and saves the
result with its index; a change at or below the saved index is skipped, which is what makes replay after a restart sound.

Raft takes over the table of a snapshot as soon as it accepts the message, while the store installs the snapshot only with
the next `Ready` (`Move.restore`, `Move.install`). A change handed over between the two is compared with the store's
index, although the tracker already reflects it; `InOrder` excludes this. -/

namespace Arachne.Storage

def ConfState.IsEmpty (cs : ConfState) : Prop := cs.voters = [] ∧ cs.learners = []

instance (cs : ConfState) : Decidable cs.IsEmpty := inferInstanceAs (Decidable (_ ∧ _))

/-- The configuration of `initial_state`. -/
def WalStorage.initialConfState (s : WalStorage) : ConfState :=
  if s.confState.IsEmpty then (s.snapshot.map (·.metadata.confState)).getD .default else s.confState

instance (op : Op) : Decidable op.OnSegments :=
  match op with
  | .append _ | .setHardState _ | .syncEntries | .compact _ | .setTrailingKeepBytes _ => .isTrue trivial
  | .saveConfState _ _ | .saveSnapshot _ | .installSnapshot _ | .reopen _ => .isFalse not_false

end Arachne.Storage

namespace Arachne.Consensus

open Storage
open WalStorage (openDir openedFrom)
open Forward (ConfChangeType)
open Transition (Throughout)

/-! ## The committed log -/

/-- The committed log of a group, with its membership changes, and raft's `apply_conf_change`. Entry `i` of the list has
index `i + 1`; `none` is a normal entry. -/
structure Cluster (C : Type) where
  bootstrap : ConfState
  raftApply : ConfState → C → Option ConfState
  /-- Raft refuses a change that leaves no voter. -/
  voters_ne : ∀ cs change cs', raftApply cs change = some cs' → cs'.voters ≠ []
  log : List (Option C)
  length_lt : log.length < 2 ^ 64

variable {C : Type}

namespace Cluster

/-- What a committed entry does to the configuration. -/
def applyEntry (c : Cluster C) (cs : ConfState) : Option C → Option ConfState
  | none => some cs
  | some change => c.raftApply cs change

/-- The configuration after the first `n` entries, each change applied once in log order; `none` if raft refuses one. -/
def confAt (c : Cluster C) (n : Nat) : Option ConfState := (c.log.take n).foldlM c.applyEntry c.bootstrap

variable {c : Cluster C} {n j : Nat} {cs : ConfState}

theorem confAt_zero (c : Cluster C) : c.confAt 0 = some c.bootstrap := rfl

theorem confAt_succ {entry : Option C} (h : c.log[n]? = some entry) :
    c.confAt (n + 1) = (c.confAt n).bind fun cs => c.applyEntry cs entry := by
  rw [confAt, confAt, List.take_add_one, h, List.foldlM_append]
  refine congrArg _ (funext fun cs => ?_)
  exact Option.bind_fun_some _

theorem confAt_succ_normal (h : c.log[n]? = some none) : c.confAt (n + 1) = c.confAt n := by
  rw [confAt_succ h]
  exact Option.bind_fun_some _

theorem confAt_of_length_le (h : c.log.length ≤ n) : c.confAt n = c.confAt c.log.length := by
  rw [confAt, confAt, List.take_of_length_le h, List.take_length]

/-- A refused change is never got past. -/
theorem confAt_eq_none (h : c.confAt j = none) (hle : j ≤ n) : c.confAt n = none := by
  induction n, hle using Nat.le_induction with
  | base => exact h
  | succ n _ ih =>
      cases hn : c.log[n]? with
      | none =>
          have hlen := List.getElem?_eq_none_iff.mp hn
          rw [confAt_of_length_le (Nat.le_succ_of_le hlen), ← confAt_of_length_le hlen, ih]
      | some entry =>
          rw [confAt_succ hn, ih]
          rfl

/-- An empty configuration is the one the group started with, and no change was made. -/
theorem confAt_of_isEmpty (hempty : cs.IsEmpty) (h : c.confAt n = some cs) (hle : j ≤ n) : c.confAt j = some cs := by
  induction n, hle using Nat.le_induction with
  | base => exact h
  | succ n _ ih =>
      refine ih ?_
      cases hn : c.log[n]? with
      | none =>
          have hlen := List.getElem?_eq_none_iff.mp hn
          rwa [confAt_of_length_le (Nat.le_succ_of_le hlen), ← confAt_of_length_le hlen] at h
      | some entry =>
          cases entry with
          | none => rwa [confAt_succ_normal hn] at h
          | some change =>
              rw [confAt_succ hn, Option.bind_eq_some_iff] at h
              obtain ⟨old, -, hchange⟩ := h
              exact absurd hempty.1 (c.voters_ne old change cs hchange)

/-- The member table of a snapshot is the configuration at its index. -/
def Carries (c : Cluster C) (snapshot : Snapshot) : Prop :=
  c.confAt snapshot.metadata.index.toNat = some snapshot.metadata.confState

instance (c : Cluster C) (snapshot : Snapshot) : Decidable (c.Carries snapshot) :=
  inferInstanceAs (Decidable (_ = _))

/-- The configuration raft starts from: `initial_state` of the adapter, which knows the bootstrap configuration. -/
def initialState (c : Cluster C) (s : WalStorage) : ConfState :=
  if s.initialConfState.IsEmpty then c.bootstrap else s.initialConfState

end Cluster

/-! ## A member -/

/-- A member of the group. -/
structure Member where
  store : WalStorage
  /-- The configuration in raft's progress tracker. -/
  conf : ConfState
  /-- The last committed entry handed over. -/
  handed : Nat
  /-- A snapshot raft has restored and the store has yet to install. -/
  restored : Option Snapshot
  /-- The changes handed to raft since the start, by index. -/
  given : List Nat
  deriving DecidableEq

namespace Member

/-- A member that has just opened its store. -/
def start (c : Cluster C) (store : WalStorage) : Member where
  store
  conf := c.initialState store
  -- Raft delivers what is committed above the snapshot once more.
  handed := store.compactedTo
  restored := none
  given := []

/-- `apply_conf_change`: `none` if raft refuses the change. -/
def applyConfChange (c : Cluster C) (m : Member) (index : Nat) (change : C) : Option Member :=
  if index ≤ m.store.confChangeIndex then some m
  else
    match c.raftApply m.conf change with
    | none => none
    | some conf =>
      some { m with conf, store := m.store.saveConfState (UInt64.ofNat index) conf, given := m.given ++ [index] }

/-- The next committed entry is handed over. -/
def apply (c : Cluster C) (m : Member) : Option Member :=
  match c.log[m.handed]? with
  | none => none
  | some none => some { m with handed := m.handed + 1 }
  | some (some change) =>
    (m.applyConfChange c (m.handed + 1) change).map fun m => { m with handed := m.handed + 1 }

/-- The change raft is given if the next entry is handed over now. -/
def dueChange (c : Cluster C) (m : Member) : Option C :=
  match c.log[m.handed]? with
  | some (some change) => if m.handed + 1 ≤ m.store.confChangeIndex then none else some change
  | _ => none

/-- Raft's commit is at least here. -/
def committed (m : Member) : Nat := max m.handed (WalStorage.watermark m.restored)

/-- Hand over `n` committed entries. -/
def replay (c : Cluster C) : Nat → Member → Option Member
  | 0, m => some m
  | n + 1, m => (m.apply c).bind (replay c n)

end Member

/-- What a member does: it hands the next committed entry over, saves a snapshot of its own, lets raft restore a snapshot
it was sent, installs that one in the store, or performs some other operation on the log. -/
inductive Move where
  | apply
  | create (snapshot : Snapshot)
  | restore (snapshot : Snapshot)
  | install
  | log (op : Op)
  deriving DecidableEq

namespace Move

/-- Make a move, if it is possible. Nothing beyond a restored snapshot is handed over before it is installed. -/
def exec (c : Cluster C) (opts : WalOptions) (m : Member) : Move → Option Member
  | .apply => if m.restored = none ∨ m.handed < WalStorage.watermark m.restored then m.apply c else none
  | .create snapshot =>
    if snapshot.metadata.index.toNat ≤ m.handed ∧ c.Carries snapshot then
      some { m with store := m.store.saveSnapshot snapshot }
    else none
  | .restore snapshot =>
    if m.committed ≤ snapshot.metadata.index.toNat ∧ c.Carries snapshot then
      -- The tracker follows at once, the store with the next `Ready`.
      some { m with conf := snapshot.metadata.confState, restored := some snapshot }
    else none
  | .install =>
    match m.restored with
    | none => none
    | some snapshot =>
      (m.store.installSnapshot snapshot).toOption.map fun store =>
        { m with store, handed := max m.handed snapshot.metadata.index.toNat, restored := none }
  | .log op => if op.OnSegments then (op.exec opts m.store).toOption.map fun store => { m with store } else none

/-- The storage operation of a move. -/
def op? (c : Cluster C) (m : Member) : Move → Option Op
  | .apply =>
    (m.dueChange c).bind fun change =>
      (c.raftApply m.conf change).map fun conf => .saveConfState (UInt64.ofNat (m.handed + 1)) conf
  | .create snapshot => some (.saveSnapshot snapshot)
  | .restore _ => none
  | .install => m.restored.map .installSnapshot
  | .log op => some op

/-- The directory after a crash behind the first `k` file-system calls of a move. -/
def crashDir (c : Cluster C) (opts : WalOptions) (m : Member) (move : Move) (k : Nat) : Dir :=
  match move.op? c m with
  | none => m.store.dir
  | some op => op.crashDir opts m.store k

/-- No change is handed to raft while a restored snapshot waits to be installed, and raft restores no snapshot below the
last change the store has saved. -/
def InOrder (c : Cluster C) (m : Member) : Move → Prop
  | .apply => m.restored = none ∨ m.dueChange c = none
  | .restore snapshot => m.store.confChangeIndex ≤ snapshot.metadata.index.toNat
  | _ => True

instance [DecidableEq C] (c : Cluster C) (m : Member) (move : Move) : Decidable (move.InOrder c m) :=
  match move with
  | .apply => inferInstanceAs (Decidable (_ ∨ _))
  | .restore _ => inferInstanceAs (Decidable (_ ≤ _))
  | .create _ | .install | .log _ => .isTrue trivial

end Move

/-- A move, or a crash behind the first `k` file-system calls of one and a restart. -/
inductive MemberAct where
  | make (move : Move)
  | crash (move : Move) (k : Nat) (config : WalConfig)
  deriving DecidableEq

namespace MemberAct

def exec (c : Cluster C) (opts : WalOptions) (m : Member) : MemberAct → Option Member
  | .make move => move.exec c opts m
  | .crash move k config =>
    (move.exec c opts m).bind fun _ =>
      (openDir (move.crashDir c opts m k) { opts with config }).2.toOption.map (Member.start c)

def InOrder (c : Cluster C) (m : Member) : MemberAct → Prop
  | .make move | .crash move _ _ => move.InOrder c m

instance [DecidableEq C] (c : Cluster C) (m : Member) (act : MemberAct) : Decidable (act.InOrder c m) :=
  match act with
  | .make move | .crash move _ _ => inferInstanceAs (Decidable (move.InOrder c m))

end MemberAct

/-- A run of a member from an empty directory, each act meeting `ok` in the state it starts from. -/
def MemberRun (c : Cluster C) (opts : WalOptions) (ok : Member → MemberAct → Prop) : List MemberAct → Member → Prop :=
  Transition.Run (fun m => ∃ s, (openDir .empty opts).2 = .ok s ∧ m = Member.start c s)
    fun m act m' => ok m act ∧ act.exec c opts m = some m'

/-! ## What is on disk -/

/-- The membership file and every snapshot file hold the configuration at their index. -/
structure Durable (c : Cluster C) (d : Dir) : Prop where
  membership : ∀ index cs, d.membership = some (index, cs) → c.confAt index.toNat = some cs
  snapshots : ∀ f ∈ d.snapshots, ∀ snapshot ∈ f.content, c.Carries snapshot

/-- A call that writes no other configuration. -/
def WritesConf (c : Cluster C) : FsStep → Prop
  | .renameSnapshot snapshot => c.Carries snapshot
  | .writeMembership index cs => c.confAt index.toNat = some cs
  | _ => True

/-- An operation that writes no other configuration. -/
def SavesConf (c : Cluster C) : Op → Prop
  | .saveConfState index cs => c.confAt index.toNat = some cs
  | .saveSnapshot snapshot | .installSnapshot snapshot => c.Carries snapshot
  | op => op.OnSegments

namespace Durable

variable {c : Cluster C} {d : Dir} {s s' : WalStorage}

theorem empty (c : Cluster C) : Durable c .empty := by
  refine ⟨fun index cs h => ?_, fun f hf => absurd hf List.not_mem_nil⟩
  cases h

theorem run {step : FsStep} (hstep : WritesConf c step) (h : Durable c d) : Durable c (step.run d) := by
  cases step with
  | renameSnapshot snapshot =>
      -- the file is new or was there before
      refine ⟨h.membership, fun f hf saved hsaved => ?_⟩
      rcases (List.mem_orderedInsert _).mp hf with rfl | hf
      · obtain rfl := Option.some.inj hsaved
        exact hstep
      · exact h.snapshots f (List.mem_of_mem_filter hf) saved hsaved
  | removeSnapshot index term =>
      exact ⟨h.membership, fun f hf => h.snapshots f (List.mem_of_mem_filter hf)⟩
  | writeMembership index cs =>
      refine ⟨fun index' cs' hfile => ?_, h.snapshots⟩
      obtain ⟨rfl, rfl⟩ := Prod.mk.inj (Option.some.inj hfile)
      exact hstep
  | _ => exact ⟨h.membership, h.snapshots⟩

theorem saveSteps {snapshot : Snapshot} (hcarries : c.Carries snapshot) (h : Durable c s.dir) :
    Throughout FsStep.run (Durable c) s.dir (s.saveSteps snapshot) := by
  refine .of_kept h fun step hstep d hd => hd.run ?_
  rw [WalStorage.saveSteps] at hstep
  split_ifs at hstep
  · cases hstep
  · rcases List.mem_cons.mp hstep with rfl | hstep
    · exact hcarries
    · rcases List.mem_cons.mp hstep with rfl | hstep
      · trivial
      · obtain ⟨f, -, rfl⟩ := List.mem_map.mp hstep
        trivial

theorem of_segments (d : Dir) (segments : Assoc Codec.Bytes) (h : Durable c d) : Durable c { d with segments } :=
  ⟨h.membership, h.snapshots⟩

/-- **An operation** leaves it so wherever it is cut short. -/
theorem passes {opts : WalOptions} {op : Op} (hop : SavesConf c op) (hok : op.exec opts s = .ok s')
    (h : Durable c s.dir) : Passes (Durable c) s s' := by
  by_cases hseg : op.OnSegments
  · exact passes_exec of_segments h hseg hok
  · cases op with
    | saveConfState index cs =>
        obtain rfl := Except.ok.inj hok
        have hrun : Durable c (FsStep.run s.dir (.writeMembership index cs)) := run hop h
        exact (Passes.io s h hrun).congr rfl rfl
    | saveSnapshot snapshot =>
        obtain rfl := Except.ok.inj hok
        exact passes_saveSnapshot (h.saveSteps hop)
    | installSnapshot snapshot => exact passes_installSnapshot of_segments hok (h.saveSteps hop)
    | _ => exact absurd hop hseg

theorem crashDir {opts : WalOptions} {op : Op} (hop : SavesConf c op) (hok : op.exec opts s = .ok s')
    (h : Durable c s.dir) (k : Nat) : Durable c (op.crashDir opts s k) := by
  refine Op.crashDir_of_passes ?_ hok (h.passes hop hok) k
  rintro config rfl
  exact hop.elim

/-- **What `open` recovers** is the configuration at the index it reports, whichever of the three sources it is from. -/
theorem confAt_openDir {opts : WalOptions} {t : WalStorage} (h : Durable c d) (hopen : (openDir d opts).2 = .ok t) :
    c.confAt t.confChangeIndex = some (c.initialState t) := by
  have hfrom := openedFrom hopen
  have htable : ∀ snapshot ∈ t.snapshot, c.Carries snapshot := by
    intro snapshot hsnapshot
    rw [hfrom.snapshot_eq, WalStorage.loadSnapshot] at hsnapshot
    split_ifs at hsnapshot
    · cases hsnapshot
    · obtain ⟨f, hf, -, hvalid, -⟩ := WalStorage.newestValid_eq_some hsnapshot
      rw [WalStorage.SnapshotFile.valid?, Option.filter_eq_some_iff] at hvalid
      exact h.snapshots f hf snapshot hvalid.1
  -- without a newer membership file the table applies, or else the bootstrap configuration
  have hold : t.confState.IsEmpty → ∀ cs, c.confAt t.compactedTo = some cs → c.initialState t = cs := by
    intro hempty cs hcs
    rw [Cluster.initialState, WalStorage.initialConfState, if_pos hempty]
    rw [hfrom.compactedTo_eq] at hcs
    cases hsnapshot : t.snapshot with
    | none =>
        rw [hsnapshot] at hcs
        exact Option.some.inj hcs
    | some snapshot =>
        rw [hsnapshot] at hcs
        have hcarries := htable snapshot hsnapshot
        obtain rfl := Option.some.inj (hcarries.symm.trans hcs)
        show (if snapshot.metadata.confState.IsEmpty then _ else _) = _
        split_ifs with hnone
        · exact Option.some.inj (Cluster.confAt_of_isEmpty hnone hcs (Nat.zero_le _))
        · rfl
  rcases hfrom.membership_cases with ⟨index, hfile, hindex, hnewer⟩ | ⟨hindex, hdefault⟩
  · have hcs := h.membership index _ hfile
    rw [hindex, hcs]
    by_cases hempty : t.confState.IsEmpty
    · -- nothing was changed up to there, so that the older sources agree
      refine congrArg some (hold hempty _ ?_).symm
      exact Cluster.confAt_of_isEmpty hempty hcs (hindex ▸ hnewer).le
    · rw [Cluster.initialState, WalStorage.initialConfState, if_neg hempty, if_neg hempty]
  · have hempty : t.confState.IsEmpty := by
      rw [hdefault]
      exact ⟨rfl, rfl⟩
    have hsome : ∃ cs, c.confAt t.compactedTo = some cs := by
      rw [hfrom.compactedTo_eq]
      cases hsnapshot : t.snapshot with
      | none => exact ⟨_, Cluster.confAt_zero c⟩
      | some snapshot => exact ⟨_, htable snapshot hsnapshot⟩
    obtain ⟨cs, hcs⟩ := hsome
    rw [hindex, hcs, hold hempty cs hcs]

/-- **Opening** changes neither kind of file. -/
theorem openDir {opts : WalOptions} {t : WalStorage} (h : Durable c d) (hopen : (openDir d opts).2 = .ok t) :
    Durable c t.dir := by
  have hfrom := openedFrom hopen
  refine ⟨?_, ?_⟩
  · rw [hfrom.membership_eq]
    exact h.membership
  · rw [hfrom.snapshots_eq]
    exact h.snapshots

end Durable

/-! ## Moves -/

namespace Member

variable {c : Cluster C} {m m' : Member}

/-- **What handing an entry over does**: nothing but counting it, or giving raft the change that is due. -/
theorem apply_eq_some (h : m.apply c = some m') :
    (m.dueChange c = none ∧ m' = { m with handed := m.handed + 1 } ∧
      (c.log[m.handed]? = some none ∨ m.handed + 1 ≤ m.store.confChangeIndex)) ∨
    ∃ change conf, m.dueChange c = some change ∧ c.log[m.handed]? = some (some change) ∧
      m.store.confChangeIndex ≤ m.handed ∧ c.raftApply m.conf change = some conf ∧
      m' = { m with
        conf
        store := m.store.saveConfState (UInt64.ofNat (m.handed + 1)) conf
        handed := m.handed + 1
        given := m.given ++ [m.handed + 1] } := by
  rw [apply] at h
  split at h
  · cases h
  · next hentry =>
      refine .inl ⟨?_, (Option.some.inj h).symm, .inl hentry⟩
      rw [dueChange, hentry]
  · next change hentry =>
      rw [dueChange, hentry]
      rw [applyConfChange] at h
      split_ifs at h with hold
      · exact .inl ⟨if_pos hold, (Option.some.inj h).symm, .inr hold⟩
      · split at h
        · cases h
        · next conf hraft =>
            exact .inr ⟨change, conf, if_neg hold, rfl, by omega, hraft, (Option.some.inj h).symm⟩

theorem restored_apply (h : m.apply c = some m') : m'.restored = m.restored := by
  rcases apply_eq_some h with ⟨-, rfl, -⟩ | ⟨change, conf, -, -, -, -, rfl⟩
  · rfl
  · rfl

theorem toNat_index {entry : Option C} (h : c.log[m.handed]? = some entry) :
    (UInt64.ofNat (m.handed + 1)).toNat = m.handed + 1 := by
  have hlt := (List.getElem?_eq_some_iff.mp h).1
  exact UInt64.toNat_ofNat_of_lt' (Nat.lt_of_le_of_lt hlt c.length_lt)

/-- The entries the tracker reflects. -/
def reflected (m : Member) : Nat :=
  match m.restored with
  | none => max m.handed m.store.confChangeIndex
  | some snapshot => snapshot.metadata.index.toNat

theorem reflected_of_none (h : m.restored = none) : m.reflected = max m.handed m.store.confChangeIndex := by
  rw [reflected, h]

theorem reflected_of_some {snapshot : Snapshot} (h : m.restored = some snapshot) :
    m.reflected = snapshot.metadata.index.toNat := by
  rw [reflected, h]

end Member

namespace Move

variable {c : Cluster C} {opts : WalOptions} {m m' : Member} {snapshot : Snapshot}

theorem exec_apply (h : Move.apply.exec c opts m = some m') :
    (m.restored = none ∨ m.handed < WalStorage.watermark m.restored) ∧ m.apply c = some m' :=
  Option.ite_none_right_eq_some.mp h

theorem exec_create (h : (Move.create snapshot).exec c opts m = some m') :
    snapshot.metadata.index.toNat ≤ m.handed ∧ c.Carries snapshot ∧
      m' = { m with store := m.store.saveSnapshot snapshot } := by
  obtain ⟨⟨hle, hcarries⟩, hm'⟩ := Option.ite_none_right_eq_some.mp h
  exact ⟨hle, hcarries, (Option.some.inj hm').symm⟩

theorem exec_restore (h : (Move.restore snapshot).exec c opts m = some m') :
    m.committed ≤ snapshot.metadata.index.toNat ∧ c.Carries snapshot ∧
      m' = { m with conf := snapshot.metadata.confState, restored := some snapshot } := by
  obtain ⟨⟨hle, hcarries⟩, hm'⟩ := Option.ite_none_right_eq_some.mp h
  exact ⟨hle, hcarries, (Option.some.inj hm').symm⟩

theorem exec_install (h : Move.install.exec c opts m = some m') :
    ∃ snapshot store, m.restored = some snapshot ∧ m.store.installSnapshot snapshot = .ok store ∧
      m' = { m with store, handed := max m.handed snapshot.metadata.index.toNat, restored := none } := by
  simp only [exec] at h
  split at h
  · cases h
  · next snapshot hpending =>
      obtain ⟨store, hstore, hm'⟩ := Option.map_eq_some_iff.mp h
      exact ⟨snapshot, store, hpending, toOption_eq_some.mp hstore, hm'.symm⟩

theorem exec_log {op : Op} (h : (Move.log op).exec c opts m = some m') :
    op.OnSegments ∧ ∃ store, op.exec opts m.store = .ok store ∧ m' = { m with store } := by
  obtain ⟨hseg, hm'⟩ := Option.ite_none_right_eq_some.mp h
  obtain ⟨store, hstore, hm'⟩ := Option.map_eq_some_iff.mp hm'
  exact ⟨hseg, store, toOption_eq_some.mp hstore, hm'.symm⟩

end Move

/-- The tracker agrees with the log, and so does what is on disk. -/
structure Consistent (c : Cluster C) (m : Member) : Prop where
  durable : Durable c m.store.dir
  conf_eq : c.confAt m.reflected = some m.conf
  pending : ∀ snapshot ∈ m.restored, c.Carries snapshot ∧ m.handed ≤ snapshot.metadata.index.toNat ∧
    m.store.confChangeIndex ≤ snapshot.metadata.index.toNat

namespace Consistent

variable {c : Cluster C} {opts : WalOptions} {m m' : Member}

/-- A change raft is given comes out as the configuration at its index. -/
theorem confAt_change (h : Consistent c m) (hnone : m.restored = none) {change : C} {conf : ConfState}
    (hentry : c.log[m.handed]? = some (some change)) (hold : m.store.confChangeIndex ≤ m.handed)
    (hraft : c.raftApply m.conf change = some conf) : c.confAt (m.handed + 1) = some conf := by
  have hconf := h.conf_eq
  rw [Member.reflected, hnone] at hconf
  replace hconf : c.confAt m.handed = some m.conf := by rwa [Nat.max_eq_left hold] at hconf
  rw [Cluster.confAt_succ hentry, hconf]
  exact hraft

/-- **What a move saves** is the configuration at its index. -/
theorem savesConf (h : Consistent c m) {move : Move} (hok : move.exec c opts m = some m') (horder : move.InOrder c m) :
    (move.op? c m = none ∧ m'.store = m.store) ∨
      ∃ op, move.op? c m = some op ∧ SavesConf c op ∧ op.exec opts m.store = .ok m'.store := by
  cases move with
  | apply =>
      obtain ⟨-, happly⟩ := Move.exec_apply hok
      rcases Member.apply_eq_some happly with ⟨hdue, rfl, -⟩ | ⟨change, conf, hdue, hentry, hold, hraft, rfl⟩
      · refine .inl ⟨?_, rfl⟩
        rw [Move.op?, hdue]
        rfl
      · have hnone : m.restored = none := horder.resolve_right (by rw [hdue]; exact Option.some_ne_none _)
        refine .inr ⟨.saveConfState (UInt64.ofNat (m.handed + 1)) conf, ?_, ?_, rfl⟩
        · rw [Move.op?, hdue, Option.bind_some, hraft]
          rfl
        · show c.confAt _ = _
          rw [Member.toNat_index hentry]
          exact h.confAt_change hnone hentry hold hraft
  | create snapshot =>
      obtain ⟨-, hcarries, rfl⟩ := Move.exec_create hok
      exact .inr ⟨_, rfl, hcarries, rfl⟩
  | restore snapshot =>
      obtain ⟨-, -, rfl⟩ := Move.exec_restore hok
      exact .inl ⟨rfl, rfl⟩
  | install =>
      obtain ⟨snapshot, store, hpending, hstore, rfl⟩ := Move.exec_install hok
      refine .inr ⟨.installSnapshot snapshot, ?_, (h.pending snapshot hpending).1, hstore⟩
      rw [Move.op?, hpending]
      rfl
  | log op =>
      obtain ⟨hseg, store, hstore, rfl⟩ := Move.exec_log hok
      refine .inr ⟨op, rfl, ?_, hstore⟩
      cases op with
      | saveConfState | saveSnapshot | installSnapshot | reopen => exact hseg.elim
      | _ => exact hseg

theorem crashDir (h : Consistent c m) {move : Move} (hok : move.exec c opts m = some m') (horder : move.InOrder c m)
    (k : Nat) : Durable c (move.crashDir c opts m k) := by
  rcases h.savesConf hok horder with ⟨hop, -⟩ | ⟨op, hop, hsaves, hexec⟩
  · rw [Move.crashDir, hop]
    exact h.durable
  · rw [Move.crashDir, hop]
    exact h.durable.crashDir hsaves hexec k

theorem durable_exec (h : Consistent c m) {move : Move} (hok : move.exec c opts m = some m')
    (horder : move.InOrder c m) : Durable c m'.store.dir := by
  rcases h.savesConf hok horder with ⟨-, hstore⟩ | ⟨op, -, hsaves, hexec⟩
  · rw [hstore]
    exact h.durable
  · exact (h.durable.passes hsaves hexec).last

/-- Handing an entry over, with no snapshot waiting. -/
theorem confAt_apply (h : Consistent c m) (hnone : m.restored = none) (hok : m.apply c = some m') :
    c.confAt m'.reflected = some m'.conf := by
  have hconf := h.conf_eq
  rw [Member.reflected_of_none hnone] at hconf
  rw [Member.reflected_of_none ((Member.restored_apply hok).trans hnone)]
  rcases Member.apply_eq_some hok with ⟨-, rfl, hentry | hold⟩ | ⟨change, conf, -, hentry, hold, hraft, rfl⟩
  · -- a normal entry changes nothing, and the store may be ahead of it anyway
    show c.confAt (max (m.handed + 1) m.store.confChangeIndex) = some m.conf
    by_cases hahead : m.handed + 1 ≤ m.store.confChangeIndex
    · rwa [Nat.max_eq_right hahead, ← Nat.max_eq_right (Nat.le_of_succ_le hahead)]
    · rw [Nat.max_eq_left (by omega)] at hconf ⊢
      rw [Cluster.confAt_succ_normal hentry, hconf]
  · show c.confAt (max (m.handed + 1) m.store.confChangeIndex) = some m.conf
    rwa [Nat.max_eq_right hold, ← Nat.max_eq_right (Nat.le_of_succ_le hold)]
  · show c.confAt (max (m.handed + 1) (UInt64.ofNat (m.handed + 1)).toNat) = some conf
    rw [Member.toNat_index hentry, Nat.max_self]
    exact h.confAt_change hnone hentry hold hraft

/-- The store may catch up with the entries handed over. -/
theorem of_store (h : Consistent c m) {store : WalStorage} (hdurable : Durable c store.dir)
    (hle : m.store.confChangeIndex ≤ store.confChangeIndex)
    (hle' : store.confChangeIndex ≤ max m.handed m.store.confChangeIndex) : Consistent c { m with store } := by
  have hconf := h.conf_eq
  refine ⟨hdurable, ?_, fun snapshot hsnapshot => ?_⟩
  · cases hpending : m.restored with
    | none =>
        have hmax : max m.handed store.confChangeIndex = max m.handed m.store.confChangeIndex := by omega
        rw [Member.reflected_of_none hpending] at hconf
        rw [Member.reflected_of_none rfl, hmax, hconf]
    | some snapshot =>
        rw [Member.reflected_of_some hpending] at hconf
        rw [Member.reflected_of_some rfl, hconf]
  · obtain ⟨hcarries, hhanded, hold⟩ := h.pending snapshot hsnapshot
    exact ⟨hcarries, hhanded, hle'.trans (Nat.max_le.mpr ⟨hhanded, hold⟩)⟩

/-- **Every move** in order keeps it. -/
theorem exec (h : Consistent c m) {move : Move} (hok : move.exec c opts m = some m') (horder : move.InOrder c m) :
    Consistent c m' := by
  have hdurable := h.durable_exec hok horder
  cases move with
  | apply =>
      obtain ⟨hguard, hok⟩ := Move.exec_apply hok
      have hrestored := Member.restored_apply hok
      cases hpending : m.restored with
      | none =>
          refine ⟨hdurable, h.confAt_apply hpending hok, fun snapshot hsnapshot => ?_⟩
          rw [hrestored, hpending] at hsnapshot
          cases hsnapshot
      | some snapshot =>
          -- raft is given nothing, and the entry is one the snapshot covers
          have hdue : m.dueChange c = none := horder.resolve_left (by rw [hpending]; exact Option.some_ne_none _)
          have hlt : m.handed < snapshot.metadata.index.toNat := by
            rw [hpending] at hguard
            exact hguard.resolve_left (Option.some_ne_none _)
          have hconf := h.conf_eq
          rw [Member.reflected_of_some hpending] at hconf
          rcases Member.apply_eq_some hok with ⟨-, rfl, -⟩ | ⟨change, conf, hsome, -⟩
          · refine ⟨hdurable, ?_, fun snapshot' hsnapshot => ?_⟩
            · rw [Member.reflected_of_some (hrestored.trans hpending)]
              exact hconf
            · obtain rfl := Option.some.inj (hpending.symm.trans hsnapshot)
              obtain ⟨hcarries, -, hold⟩ := h.pending _ hpending
              exact ⟨hcarries, hlt, hold⟩
          · rw [hdue] at hsome
            cases hsome
  | create snapshot =>
      obtain ⟨hhanded, -, rfl⟩ := Move.exec_create hok
      have hconf := m.store.conf_saveSnapshot snapshot
      split_ifs at hconf
      · have hindex := (Prod.mk.inj hconf).2
        exact h.of_store hdurable hindex.ge (hindex.le.trans (Nat.le_max_right _ _))
      · have hindex := (Prod.mk.inj hconf).2
        rw [WalStorage.confChangeIndex_adoptConfState] at hindex
        exact h.of_store hdurable (by omega) (by omega)
  | restore snapshot =>
      obtain ⟨hle, hcarries, rfl⟩ := Move.exec_restore hok
      refine ⟨hdurable, hcarries, fun snapshot' hsnapshot => ?_⟩
      obtain rfl := Option.some.inj hsnapshot
      exact ⟨hcarries, (Nat.le_max_left _ _).trans hle, horder⟩
  | install =>
      obtain ⟨snapshot, store, hpending, hstore, rfl⟩ := Move.exec_install hok
      obtain ⟨hcarries, hhanded, hold⟩ := h.pending snapshot hpending
      have hconf := h.conf_eq
      rw [Member.reflected_of_some hpending] at hconf
      have hindex : store.confChangeIndex ≤ snapshot.metadata.index.toNat := by
        rcases WalStorage.installSnapshot_eq_ok hstore with ⟨-, -, rfl⟩ | ⟨-, rfl⟩
        · exact hold
        · show (m.store.adoptConfState snapshot).confChangeIndex ≤ _
          rw [WalStorage.confChangeIndex_adoptConfState]
          exact Nat.max_le.mpr ⟨hold, le_rfl⟩
      refine ⟨hdurable, ?_, fun snapshot' hsnapshot => ?_⟩
      · rw [Member.reflected_of_none rfl]
        dsimp only
        rw [Nat.max_eq_right hhanded, Nat.max_eq_left hindex, hconf]
      · cases hsnapshot
  | log op =>
      obtain ⟨hseg, store, hstore, rfl⟩ := Move.exec_log hok
      have hframed := Framed.exec hseg hstore
      have hindex : store.confChangeIndex = m.store.confChangeIndex := hframed.confChangeIndex_eq
      exact h.of_store hdurable hindex.ge (hindex.le.trans (Nat.le_max_right _ _))

/-- **A member that has just opened its store.** -/
theorem start {d : Dir} {t : WalStorage} (h : Durable c d) (hopen : (openDir d opts).2 = .ok t) :
    Consistent c (Member.start c t) := by
  refine ⟨h.openDir hopen, ?_, fun snapshot hsnapshot => ?_⟩
  · have hle : t.compactedTo ≤ t.confChangeIndex := by
      rcases (openedFrom hopen).membership_cases with ⟨_, -, -, hnewer⟩ | ⟨hindex, -⟩
      · exact hnewer.le
      · exact hindex.ge
    rw [Member.reflected_of_none rfl]
    show c.confAt (max t.compactedTo t.confChangeIndex) = _
    rw [Nat.max_eq_right hle]
    exact h.confAt_openDir hopen
  · cases hsnapshot

end Consistent

/-- **Every run** in order is consistent. -/
theorem MemberRun.consistent {c : Cluster C} {opts : WalOptions} {acts : List MemberAct} {m : Member}
    (h : MemberRun c opts (fun m act => act.InOrder c m) acts m) : Consistent c m := by
  refine Transition.Run.invariant (P := fun _ m => Consistent c m) ?_ ?_ h
  · rintro _ ⟨s, hopen, rfl⟩
    exact .start (.empty c) hopen
  · rintro _ m act m' - ih ⟨horder, hok⟩
    cases act with
    | make move => exact ih.exec hok horder
    | crash move k config =>
        obtain ⟨m₁, hmove, hrest⟩ := Option.bind_eq_some_iff.mp hok
        obtain ⟨t, ht, rfl⟩ := Option.map_eq_some_iff.mp hrest
        exact .start (ih.crashDir hmove horder k) (toOption_eq_some.mp ht)

/-! ## Replay -/

namespace Member

variable {c : Cluster C} {m m' : Member}

/-- Raft is given nothing at or below what the store had saved. -/
theorem given_replay {n least : Nat} (hleast : least ≤ m.store.confChangeIndex) (hgiven : ∀ i ∈ m.given, least < i)
    (hok : replay c n m = some m') : ∀ i ∈ m'.given, least < i := by
  induction n generalizing m with
  | zero =>
      obtain rfl := Option.some.inj hok
      exact hgiven
  | succ n ih =>
      obtain ⟨m₁, happly, hrest⟩ := Option.bind_eq_some_iff.mp hok
      -- the store's index only grows, and raft is given what is above it
      rcases apply_eq_some happly with ⟨-, rfl, -⟩ | ⟨change, conf, -, hentry, hold, -, rfl⟩
      · refine ih ?_ ?_ hrest
        · exact hleast
        · exact hgiven
      · refine ih ?_ ?_ hrest
        · show least ≤ (UInt64.ofNat (m.handed + 1)).toNat
          rw [toNat_index hentry]
          omega
        · intro i hi
          rcases List.mem_append.mp hi with hi | hi
          · exact hgiven i hi
          · rw [List.mem_singleton.mp hi]
            omega

/-- What raft was given last is what the store would start it from. -/
theorem initialState_apply (h : c.initialState m.store = m.conf) (hok : m.apply c = some m') :
    c.initialState m'.store = m'.conf := by
  rcases apply_eq_some hok with ⟨-, rfl, -⟩ | ⟨change, conf, -, -, -, hraft, rfl⟩
  · exact h
  · have hne : ¬ conf.IsEmpty := fun hempty => c.voters_ne m.conf change conf hraft hempty.1
    show (if (if conf.IsEmpty then _ else conf).IsEmpty then _ else (if conf.IsEmpty then _ else conf)) = conf
    rw [if_neg hne, if_neg hne]

/-- Raft refuses a change exactly where the log does. -/
theorem confAt_of_apply_eq_none (h : Consistent c m) (hnone : m.restored = none) {entry : Option C}
    (hentry : c.log[m.handed]? = some entry) (happly : m.apply c = none) : c.confAt (m.handed + 1) = none := by
  rw [apply, hentry] at happly
  cases entry with
  | none => cases happly
  | some change =>
      replace happly := Option.map_eq_none_iff.mp happly
      rw [applyConfChange] at happly
      split_ifs at happly with hold
      have hconf := h.conf_eq
      rw [reflected_of_none hnone, Nat.max_eq_left (by omega)] at hconf
      rw [Cluster.confAt_succ hentry, hconf]
      cases hraft : c.raftApply m.conf change with
      | none => exact hraft
      | some conf =>
          rw [hraft] at happly
          cases happly

/-- **Replay ends with the configuration of the log**, in raft and in the store. -/
theorem replay_eq (opts : WalOptions) {n : Nat} (h : Consistent c m) (hnone : m.restored = none)
    (hstored : c.initialState m.store = m.conf) (hn : n = c.log.length - m.handed) :
    (replay c n m).map (fun m' => (m'.conf, c.initialState m'.store)) =
      (c.confAt c.log.length).map fun cs => (cs, cs) := by
  induction n generalizing m with
  | zero =>
      have hconf := h.conf_eq
      rw [reflected_of_none hnone, Cluster.confAt_of_length_le (by omega)] at hconf
      rw [hconf, replay]
      show some (m.conf, c.initialState m.store) = _
      rw [hstored]
      rfl
  | succ n ih =>
      have hlt : m.handed < c.log.length := by omega
      have hentry := List.getElem?_eq_getElem hlt
      rw [replay]
      cases happly : m.apply c with
      | none =>
          have hrefused := confAt_of_apply_eq_none h hnone hentry happly
          rw [Cluster.confAt_eq_none hrefused hlt]
          rfl
      | some m' =>
          have hmove : Move.apply.exec c opts m = some m' := (if_pos (.inl hnone)).trans happly
          have hhanded : m'.handed = m.handed + 1 := by
            rcases apply_eq_some happly with ⟨-, rfl, -⟩ | ⟨_, _, -, -, -, -, rfl⟩
            · rfl
            · rfl
          refine ih (h.exec hmove (.inl hnone)) ((restored_apply happly).trans hnone)
            (initialState_apply hstored happly) ?_
          rw [hhanded]
          omega

end Member

/-- Make the acts in order in an empty directory, as long as each meets `ok` and is possible. -/
def runMember (c : Cluster C) (opts : WalOptions) (ok : Member → MemberAct → Prop) [∀ m act, Decidable (ok m act)]
    (acts : List MemberAct) : Option Member :=
  match (openDir .empty opts).2 with
  | .error _ => none
  | .ok s => acts.foldlM (fun m act => if ok m act then act.exec c opts m else none) (Member.start c s)

theorem MemberRun.of_runMember {c : Cluster C} {opts : WalOptions} {ok : Member → MemberAct → Prop}
    [∀ m act, Decidable (ok m act)] {acts : List MemberAct} {m : Member} (h : runMember c opts ok acts = some m) :
    MemberRun c opts ok acts m := by
  rw [runMember] at h
  split at h
  · cases h
  · next s hs =>
      refine Transition.Run.of_foldlM (fun m act m' hm => ?_) ⟨s, hs, rfl⟩ h
      split_ifs at hm with hok
      exact ⟨hok, hm⟩

/-- `apply` of raft's `Changer`, for a single change. -/
def changeMember (cs : ConfState) (changeType : ConfChangeType) (id : UInt64) : ConfState :=
  if id = 0 then cs
  else
    match changeType with
    | .addNode =>
      { voters := if id ∈ cs.voters then cs.voters else cs.voters ++ [id], learners := cs.learners.filter (· ≠ id) }
    | .addLearnerNode =>
      { voters := cs.voters.filter (· ≠ id), learners := if id ∈ cs.learners then cs.learners else cs.learners ++ [id] }
    | .removeNode => { voters := cs.voters.filter (· ≠ id), learners := cs.learners.filter (· ≠ id) }

/-- `simple` of raft's `Changer`, which refuses to remove all voters. -/
def simpleChange (cs : ConfState) (change : ConfChangeType × UInt64) : Option ConfState :=
  if (changeMember cs change.1 change.2).voters = [] then none else some (changeMember cs change.1 change.2)

theorem voters_simpleChange (cs : ConfState) (change : ConfChangeType × UInt64) (cs' : ConfState)
    (h : simpleChange cs change = some cs') : cs'.voters ≠ [] := by
  rw [simpleChange] at h
  split_ifs at h with hempty
  obtain rfl := Option.some.inj h
  exact hempty

/-- Of three voters, 3 is removed and added again, and a learner joins. -/
def regrouped : Cluster (ConfChangeType × UInt64) where
  bootstrap := ⟨[1, 2, 3], []⟩
  raftApply := simpleChange
  voters_ne := voters_simpleChange
  log := [none, some (.removeNode, 3), some (.addNode, 3), some (.addLearnerNode, 4)]
  length_lt := by decide

/-- The snapshot of `regrouped` at 3. -/
def regroupedSnapshot : Snapshot := ⟨⟨3, 1, ⟨[1, 2, 3], []⟩⟩, []⟩

end Arachne.Consensus
