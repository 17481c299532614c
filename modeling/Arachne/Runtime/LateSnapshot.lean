import Arachne.Consensus.RaftStorage
import Arachne.Runtime.Barrier

/-! # A local snapshot that comes late

A local snapshot takes three steps: the actor asks for it, the apply task serializes its state at some index, and the
actor collects the answer in a later cycle, asks the store for the term at that index, saves the snapshot and compacts
the log. Raft works on the store in the meantime, and may install a snapshot of the leader there.

`NodeSys` puts the pipeline and the store together. If a snapshot above the index of the answer was installed, the log
below it is gone and the store does not know the term any more. The actor takes this for a failure of the storage and
stops the node (`late_snapshot_stops`). The store itself is prepared for the case: `save_snapshot` ignores a snapshot
that is not newer than its own. As long as no such snapshot comes in between, collecting always succeeds and the
recorded index only grows (`local_snapshot_harmless`). -/

namespace Arachne.Runtime.Pipeline

open Codec (Bytes)
open Consensus (RaftStorage.term term_of_mem term_at_snapshot)
open StateMachine (Store)
open Storage

variable {env : Env} {opts : WalOptions} {log : Nat → EntryType × Bytes} {first : Nat}

/-! ## The pipeline and the store -/

structure NodeSys where
  pipe : Sys
  store : WalStorage
  /-- What was done to the store so far. -/
  ops : List Op

/-- `poll_snapshot`, with `term_at` and `create_snapshot` of the node. -/
def NodeSys.pollSnapshot (n : NodeSys) : NodeSys :=
  match n.pipe.actor.snapshotWait with
  | some (some (index, data)) =>
    match RaftStorage.term n.store index.toNat with
    | some (.ok term) =>
      let snapshot : Snapshot := ⟨⟨index, term, n.pipe.actor.membership.confState⟩, data⟩
      let saved := n.store.saveSnapshot snapshot
      match saved.compact index.toNat with
      | .ok store =>
        { pipe := n.pipe.pollSnapshot (some term), store
          ops := n.ops ++ [.saveSnapshot snapshot, .compact index.toNat] }
      | .error _ => { pipe := n.pipe.pollSnapshot none, store := saved, ops := n.ops ++ [.saveSnapshot snapshot] }
    | _ => { n with pipe := n.pipe.pollSnapshot none }
  | _ => { n with pipe := n.pipe.pollSnapshot none }

/-- A membership change that was made is saved. -/
def NodeSys.changed (n : NodeSys) (pipe : Sys) : NodeSys :=
  if n.pipe.actor.membership.confChangeIndex < pipe.actor.membership.confChangeIndex then
    let index := UInt64.ofNat pipe.actor.membership.confChangeIndex
    let confState := pipe.actor.membership.confState
    { pipe, store := n.store.saveConfState index confState, ops := n.ops ++ [.saveConfState index confState] }
  else { n with pipe }

inductive NodeAction where
  /-- A step of the pipeline that the store has no part in. -/
  | pipe (a : Action)
  | change (saved : Bool)
  | poll
  /-- `node.step` writes to the store what raft has ready. -/
  | persist (op : Op)
  /-- `node.step` returns what is committed. -/
  | step (snapshot : Option Snapshot) (entries : List CommittedEntry)
  deriving DecidableEq

def Action.withoutStore : Action → Bool
  | .poll _ | .deliver _ _ | .change _ => false
  | _ => true

/-- What is in a `Ready`: a snapshot to install, entries, a hard state. -/
def ofReady : Op → Bool
  | .append _ | .setHardState _ | .syncEntries | .installSnapshot _ => true
  | _ => false

def NodeSys.exec (env : Env) (opts : WalOptions) (n : NodeSys) : NodeAction → Option NodeSys
  | .pipe a => if a.withoutStore then (n.pipe.exec env a).map fun pipe => { n with pipe } else none
  | .change saved => (n.pipe.exec env (.change saved)).map n.changed
  | .poll =>
    match n.pipe.actor.stopped, n.pipe.actor.phase with
    | false, .polling => some n.pollSnapshot
    | _, _ => none
  | .persist op =>
    match n.pipe.actor.stopped, n.pipe.actor.phase with
    | false, .stepping =>
      if ofReady op then (op.exec opts n.store).toOption.map fun store => { n with store, ops := n.ops ++ [op] } else none
    | _, _ => none
  | .step snapshot entries => (n.pipe.exec env (.deliver snapshot entries)).map fun pipe => { n with pipe }

/-- What raft promises: what it has delivered stays in its log, what it delivers is there, and so is a snapshot. -/
def NodeSys.Contract (log : Nat → EntryType × Bytes) (n n' : NodeSys) : NodeAction → Prop
  | .persist _ => n.pipe.history.delivered ≤ n'.store.lastIndex
  | .step snapshot entries =>
    Delivery log n.pipe.history.delivered snapshot entries ∧
      lastDelivered n.pipe.history.delivered snapshot entries ≤ n.store.lastIndex ∧
      ∀ snap ∈ snapshot, snap.metadata.index.toNat ≤ WalStorage.watermark n.store.snapshot
  | _ => True

/-- An answer is not below the store's snapshot when it is collected, and a trailing window does not lower the
watermark. -/
def NodeSys.InTime (n : NodeSys) : NodeAction → Prop
  | .poll => ∀ answer ∈ n.pipe.actor.snapshotWait.join,
      WalStorage.watermark n.store.snapshot ≤ answer.1.toNat ∧ (n.store.trailingKeepBytes ≠ 0 → n.store.Tidy)
  | _ => True

instance decidableInTime (n : NodeSys) (a : NodeAction) : Decidable (n.InTime a) :=
  match a with
  | .poll => inferInstanceAs (Decidable (∀ answer ∈ n.pipe.actor.snapshotWait.join,
      WalStorage.watermark n.store.snapshot ≤ answer.1.toNat ∧ (n.store.trailingKeepBytes ≠ 0 → n.store.Tidy)))
  | .pipe _ | .change _ | .persist _ | .step _ _ => instDecidableTrue

def NodeSys.Step (env : Env) (opts : WalOptions) (log : Nat → EntryType × Bytes) (n : NodeSys) (a : NodeAction)
    (n' : NodeSys) : Prop :=
  n.exec env opts a = some n' ∧ n.Contract log n' a

/-- The node of a process that starts with the state machine `sm` and the open store `store`. -/
def NodeSys.start (sm : Store) (membership : Membership) (clock : Option Nat) (store : WalStorage) (ops : List Op) :
    NodeSys where
  pipe := Sys.start sm membership clock
  store
  ops

abbrev NodeRun (env : Env) (opts : WalOptions) (log : Nat → EntryType × Bytes) (first : NodeSys) :
    List NodeAction → NodeSys → Prop :=
  Transition.Run (· = first) (NodeSys.Step env opts log)

/-! ## The store -/

section

variable {s s' : WalStorage} {ops : List Op}

/-- The term at an index of the log that is not below the snapshot is known. -/
theorem term_known_above (hrun : WalRun opts CompactsTidily ops s) {i : Nat}
    (hsnap : WalStorage.watermark s.snapshot ≤ i) (hlast : i ≤ s.lastIndex) :
    ∃ term, RaftStorage.term s i = some (.ok term) := by
  have ha := hrun.aligned
  obtain ⟨_, _, hinv⟩ := WalRun.inv hrun
  have hmark : s.compactedTo ≤ WalStorage.watermark s.snapshot := Nat.le_trans hinv.indexed.watermark_le hinv.base_le
  have hlen := ha.lastIndex_eq
  by_cases hzero : i = 0
  · exact ⟨0, by rw [RaftStorage.term, if_pos hzero]⟩
  · rcases Nat.lt_or_ge s.compactedTo i with hlt | hge
    · obtain ⟨e, he, rfl⟩ := Storage.Consecutive.exists_mem ha (i := i) hlt (by omega)
      exact ⟨e.term, term_of_mem ha he⟩
    · -- the index is the watermark, and the snapshot is there
      have heq : i = s.compactedTo := by omega
      cases hs : s.snapshot with
      | none =>
          rw [hs] at hmark
          exact absurd (Nat.le_zero.mp (Nat.le_trans hge hmark)) hzero
      | some snapshot =>
          rw [hs] at hmark hsnap
          have hidx : snapshot.metadata.index.toNat = s.compactedTo := Nat.le_antisymm (heq ▸ hsnap) hmark
          rw [heq]
          exact ⟨_, term_at_snapshot hs hidx (heq ▸ hzero) (heq ▸ hlast)⟩

/-- What is written for a `Ready` never replaces the store's snapshot by an older one. -/
theorem watermark_ofReady {op : Op} (hready : ofReady op) (hok : op.exec opts s = .ok s') :
    WalStorage.watermark s.snapshot ≤ WalStorage.watermark s'.snapshot := by
  cases op with
  | append entries => rw [(Framed.append hok).snapshot_eq]
  | setHardState hs =>
      obtain rfl := Except.ok.inj hok
      exact Nat.le_refl _
  | syncEntries =>
      obtain rfl := Except.ok.inj hok
      obtain ⟨_, _, _, hsync⟩ := s.syncEntries_eq
      rw [hsync]
  | installSnapshot snapshot =>
      rcases WalStorage.installSnapshot_eq_ok hok with ⟨-, -, rfl⟩ | ⟨-, rfl⟩
      · exact Nat.le_refl _
      · exact (s.watermark_saved snapshot).1
  | _ => cases hready

/-- **`create_snapshot` succeeds** for an index that the log reaches. -/
theorem create_snapshot_ok (hrun : WalRun opts CompactsTidily ops s) (snapshot : Snapshot)
    (hlast : snapshot.metadata.index.toNat ≤ s.lastIndex) (htidy : s.trailingKeepBytes ≠ 0 → s.Tidy) :
    ∃ s', (s.saveSnapshot snapshot).compact snapshot.metadata.index.toNat = .ok s' ∧
      WalRun opts CompactsTidily (ops ++ [.saveSnapshot snapshot, .compact snapshot.metadata.index.toNat]) s' ∧
      s'.lastIndex = s.lastIndex ∧ WalStorage.watermark s.snapshot ≤ WalStorage.watermark s'.snapshot ∧
      snapshot.metadata.index.toNat ≤ WalStorage.watermark s'.snapshot := by
  have hsaved : WalRun opts CompactsTidily (ops ++ [.saveSnapshot snapshot]) (s.saveSnapshot snapshot) :=
    .snoc hrun ⟨trivial, rfl⟩
  obtain ⟨_, _, hinv⟩ := WalRun.inv hsaved
  have hmarks := s.watermark_saved snapshot
  have hframe : (s.saveSnapshot snapshot).lastIndex = s.lastIndex ∧
      WalStorage.watermark s.snapshot ≤ WalStorage.watermark (s.saveSnapshot snapshot).snapshot ∧
      snapshot.metadata.index.toNat ≤ WalStorage.watermark (s.saveSnapshot snapshot).snapshot ∧
      CompactsTidily (s.saveSnapshot snapshot) (.compact snapshot.metadata.index.toNat) := by
    obtain ⟨_, _, hsave⟩ := s.saveSnapshot_eq snapshot
    rw [hsave]
    refine ⟨rfl, hmarks.1, hmarks.2, fun _ hkeep n hn => htidy hkeep n ?_⟩
    rwa [WalStorage.listSegmentIndices_saveSteps] at hn
  obtain ⟨hsame, hold, hnew, htidy'⟩ := hframe
  obtain ⟨s', hok⟩ := WalStorage.compact_ok (hsame ▸ hlast) hnew
  have hsnap := (Framed.compact hok).snapshot_eq
  refine ⟨s', hok, ?_, ?_, ?_, ?_⟩
  · rw [List.append_cons]
    exact .snoc hsaved ⟨htidy', hok⟩
  · rw [hsaved.aligned.lastIndex_compact hinv hok htidy', hsame]
  · rwa [hsnap]
  · rwa [hsnap]

end

/-! ## The pipeline -/

section

variable {s s' : Sys} {a : Action}

theorem Book.snapshotIndex_enqueueAll (env : Env) (b : Book) (entries : List (UInt64 × Bytes)) :
    (entries.foldl (Book.enqueue env) b).snapshotIndex = b.snapshotIndex := by
  obtain ⟨sessions, sweep, heq⟩ := Book.enqueueAll_eq env b entries
  rw [heq]

theorem Book.snapshotIndex_stageAll (env : Env) (b : Book) (entries : List CommittedEntry) :
    (entries.foldl (Book.stage env) b).snapshotIndex = b.snapshotIndex := by
  obtain ⟨pendingConf, heq⟩ := Book.stageAll_eq env b entries
  rw [heq]

/-- What other steps than collecting an answer and delivering can do to what a local snapshot depends on. -/
structure Sys.Noted (s s' : Sys) : Prop where
  delivered : s'.history.delivered = s.history.delivered
  installing : ∀ snap, s'.actor.phase = .installing snap → s.actor.phase = .installing snap
  answered : ∀ answer ∈ s'.actor.snapshotWait.join, answer ∈ s.actor.snapshotWait.join ∨ answer.1 = s.task.sm.applied
  index : s'.actor.book.snapshotIndex = s.actor.book.snapshotIndex ∨
    ∃ snap, s.actor.phase = .installing snap ∧
      s'.actor.book.snapshotIndex = max s.actor.book.snapshotIndex snap.metadata.index.toNat

/-- Most steps leave all of it alone. -/
theorem Sys.Noted.of_same (hdelivered : s'.history.delivered = s.history.delivered)
    (hphase : ∀ snap, s'.actor.phase = .installing snap → s.actor.phase = .installing snap)
    (hwait : s'.actor.snapshotWait = s.actor.snapshotWait)
    (hindex : s'.actor.book.snapshotIndex = s.actor.book.snapshotIndex) : s.Noted s' := by
  refine ⟨hdelivered, hphase, ?_, .inl hindex⟩
  rw [hwait]
  exact fun _ => .inl

theorem Sys.Noted.orStop {popped : Sys} {snapshot : Option Snapshot} {entries : List (UInt64 × Bytes)} {phase : Phase}
    (hphase : ∀ snap, phase ≠ .installing snap) (hbook : popped.actor.book = s.actor.book)
    (hwait : popped.actor.snapshotWait = s.actor.snapshotWait) (hdelivered : popped.history.delivered = s.history.delivered)
    (hsnapshot : ∀ snap ∈ snapshot, s.actor.phase = .installing snap) :
    s.Noted (s.orStop phase (popped.enqueueApply env snapshot entries)) := by
  cases henqueue : popped.enqueueApply env snapshot entries with
  | none => exact .of_same rfl (fun _ => id) rfl rfl
  | some s' =>
      obtain ⟨hbook', -, -, hwait', hdelivered'⟩ := Sys.enqueueApply_book henqueue
      have hindex : s'.actor.book.snapshotIndex = (s.actor.book.noteInstall snapshot).snapshotIndex := by
        rw [hbook', Book.snapshotIndex_enqueueAll, hbook]
      refine ⟨hdelivered'.trans hdelivered, fun snap h => absurd h (hphase snap), ?_, ?_⟩
      · show ∀ answer ∈ s'.actor.snapshotWait.join, _
        rw [hwait', hwait]
        exact fun _ => .inl
      · cases snapshot with
        | none => exact .inl hindex
        | some snap => exact .inr ⟨snap, hsnapshot snap rfl, hindex⟩

theorem Sys.noted_of_moves (h : s.Moves env a s') (hpoll : ∀ term, a ≠ .poll term)
    (hdeliver : ∀ snapshot entries, a ≠ .deliver snapshot entries) : s.Noted s' := by
  cases h with
  | poll hphase => exact absurd rfl (hpoll _)
  | deliver hphase => exact absurd rfl (hdeliver _ _)
  | change hphase hrunning =>
      simp only [Sys.changeMembership]
      split
      · exact .of_same rfl (fun _ => id) rfl rfl
      · exact .of_same rfl (fun _ h => by cases h) rfl rfl
  | serve hphase => exact .of_same rfl (fun _ => id) rfl rfl
  | absorb hphase => exact .of_same rfl (fun _ h => by cases h) rfl rfl
  | @install snapshot hphase =>
      refine .orStop (fun _ h => by cases h) rfl rfl rfl ?_
      intro snap hsnap
      obtain rfl := Option.some.inj hsnap
      exact hphase
  | pump hphase =>
      unfold Sys.pumpCommitted
      split
      · exact .of_same rfl (fun _ h => by cases h) rfl rfl
      · split_ifs
        · exact .orStop (fun _ h => by cases h) rfl rfl rfl fun _ h => by cases h
        · exact .of_same rfl (fun _ h => by cases h) rfl rfl
        · exact .orStop (fun _ h => by cases h) rfl rfl rfl fun _ h => by cases h
  | finish hphase =>
      rcases s.maybeSnapshot_cases env with heq | heq | heq <;> rw [heq]
      · exact .of_same rfl (fun _ => id) rfl rfl
      · exact .of_same rfl (fun _ h => by cases h) rfl rfl
      · refine ⟨rfl, ?_, ?_, .inl rfl⟩
        · exact fun _ h => by cases h
        · exact fun _ h => by cases h
  | halt => exact .of_same rfl (fun _ => id) rfl rfl
  | take hfailed hworking htake =>
      rcases Sys.takeRequest_eq_some htake with ⟨batch, rest, -, rfl⟩ | ⟨rest, -, rfl⟩
      · exact .of_same rfl (fun _ => id) rfl rfl
      · refine ⟨rfl, fun _ => id, ?_, .inl rfl⟩
        intro answer hanswer
        obtain rfl := Option.some.inj hanswer
        exact .inr rfl
  | @work batch hfailed hworking =>
      obtain ⟨hactor, hhistory, -, -⟩ := s.work_frame batch
      refine .of_same ?_ ?_ ?_ ?_
      · rw [hhistory]
      · rw [hactor]
        exact fun _ => id
      · rw [hactor]
      · rw [hactor]
  | close hfailed => exact .of_same rfl (fun _ => id) rfl rfl

/-- The work of the state machine is between the start and what was delivered. -/
theorem Sys.Ordered.applied_bounds (h : s.Ordered log first) :
    first ≤ s.task.sm.applied.toNat ∧ s.task.sm.applied.toNat ≤ s.history.delivered :=
  ⟨h.applied.le, h.waiting.le⟩

end

/-! ## Runs -/

variable {n n' : NodeSys} {a : NodeAction}

/-- The steps of the node, by what they do to the pipeline and to the store. -/
inductive NodeSys.Moves (env : Env) (opts : WalOptions) (n : NodeSys) : NodeAction → NodeSys → Prop
  | pipe {b : Action} {pipe : Sys} (hpipe : n.pipe.exec env b = some pipe)
      (hdeliver : ∀ snapshot entries, b ≠ .deliver snapshot entries) (hnoted : n.pipe.Noted pipe) :
      Moves env opts n (.pipe b) { n with pipe }
  | change {saved : Bool} {pipe : Sys} (hpipe : n.pipe.exec env (.change saved) = some pipe) (hnoted : n.pipe.Noted pipe) :
      Moves env opts n (.change saved) (n.changed pipe)
  | poll (hrunning : n.pipe.actor.stopped = false) (hphase : n.pipe.actor.phase = .polling) :
      Moves env opts n .poll n.pollSnapshot
  | persist {op : Op} {store : WalStorage} (hready : ofReady op) (hok : op.exec opts n.store = .ok store) :
      Moves env opts n (.persist op) { n with store, ops := n.ops ++ [op] }
  | step {snapshot : Option Snapshot} {entries : List CommittedEntry} {pipe : Sys}
      (hpipe : n.pipe.exec env (.deliver snapshot entries) = some pipe) :
      Moves env opts n (.step snapshot entries) { n with pipe }

theorem NodeSys.moves_of_exec (hexec : n.exec env opts a = some n') : n.Moves env opts a n' := by
  cases a with
  | pipe b =>
      obtain ⟨hwithout, hexec⟩ := Option.ite_none_right_eq_some.mp hexec
      obtain ⟨pipe, hpipe, rfl⟩ := Option.map_eq_some_iff.mp hexec
      have hpoll : ∀ term, b ≠ .poll term := by
        rintro term rfl
        cases hwithout
      have hdeliver : ∀ snapshot entries, b ≠ .deliver snapshot entries := by
        rintro snapshot entries rfl
        cases hwithout
      exact .pipe hpipe hdeliver (Sys.noted_of_moves (Sys.moves_of_exec hpipe) hpoll hdeliver)
  | change saved =>
      obtain ⟨pipe, hpipe, rfl⟩ := Option.map_eq_some_iff.mp hexec
      exact .change hpipe (Sys.noted_of_moves (Sys.moves_of_exec hpipe) (fun _ h => by cases h) fun _ _ h => by cases h)
  | poll =>
      simp only [NodeSys.exec] at hexec
      split at hexec
      · next hrunning hphase =>
          obtain rfl := Option.some.inj hexec
          exact .poll hrunning hphase
      · cases hexec
  | persist op =>
      simp only [NodeSys.exec] at hexec
      split at hexec
      · obtain ⟨hready, hexec⟩ := Option.ite_none_right_eq_some.mp hexec
        obtain ⟨store, hstore, rfl⟩ := Option.map_eq_some_iff.mp hexec
        exact .persist hready (toOption_eq_some.mp hstore)
      · cases hexec
  | step snapshot entries =>
      obtain ⟨pipe, hpipe, rfl⟩ := Option.map_eq_some_iff.mp hexec
      exact .step hpipe

structure NodeSys.Kept (opts : WalOptions) (log : Nat → EntryType × Bytes) (first : Nat) (n : NodeSys) : Prop where
  wal : WalRun opts CompactsTidily n.ops n.store
  ordered : n.pipe.Ordered log first
  delivered : n.pipe.history.delivered ≤ n.store.lastIndex
  installing : ∀ snap, n.pipe.actor.phase = .installing snap →
    snap.metadata.index.toNat ≤ WalStorage.watermark n.store.snapshot
  answered : ∀ answer ∈ n.pipe.actor.snapshotWait.join, first ≤ answer.1.toNat ∧
    answer.1.toNat ≤ n.pipe.history.delivered
  noted : n.pipe.actor.book.snapshotIndex ≤ max first (WalStorage.watermark n.store.snapshot)

/-- A step of the pipeline beside a store that keeps its log and its snapshot. -/
theorem NodeSys.Kept.of_noted (h : n.Kept opts log first) {b : Action} (hb : n.pipe.Step env log b n'.pipe)
    (hnoted : n.pipe.Noted n'.pipe) (hwal : WalRun opts CompactsTidily n'.ops n'.store)
    (hlast : n'.store.lastIndex = n.store.lastIndex) (hsnap : n'.store.snapshot = n.store.snapshot) :
    n'.Kept opts log first := by
  refine ⟨hwal, h.ordered.step hb, ?_, ?_, ?_, ?_⟩
  · rw [hnoted.delivered, hlast]
    exact h.delivered
  · intro snap hphase
    rw [hsnap]
    exact h.installing snap (hnoted.installing snap hphase)
  · intro answer hanswer
    rw [hnoted.delivered]
    rcases hnoted.answered answer hanswer with hold | hnew
    · exact h.answered answer hold
    · rw [hnew]
      exact h.ordered.applied_bounds
  · rw [hsnap]
    rcases hnoted.index with hsame | ⟨snap, hphase, hmax⟩
    · rw [hsame]
      exact h.noted
    · have hle := h.installing snap hphase
      have hold := h.noted
      omega

/-- **Collecting an answer in time**: the store knows the term, and takes the snapshot in. -/
theorem NodeSys.Kept.collect (h : n.Kept opts log first) (htime : n.InTime .poll) {index : UInt64} {data : Bytes}
    (hwait : n.pipe.actor.snapshotWait = some (some (index, data))) :
    ∃ term store ops, n.pollSnapshot = ⟨n.pipe.pollSnapshot (some term), store, ops⟩ ∧
      WalRun opts CompactsTidily ops store ∧ store.lastIndex = n.store.lastIndex ∧
      WalStorage.watermark n.store.snapshot ≤ WalStorage.watermark store.snapshot ∧
      index.toNat ≤ WalStorage.watermark store.snapshot := by
  have hanswer : (index, data) ∈ n.pipe.actor.snapshotWait.join := by rw [hwait]; rfl
  obtain ⟨hcovered, htidy⟩ := htime _ hanswer
  have hlast : index.toNat ≤ n.store.lastIndex := Nat.le_trans (h.answered _ hanswer).2 h.delivered
  obtain ⟨term, hterm⟩ := term_known_above h.wal hcovered hlast
  obtain ⟨store, hok, hwal, hsame, hold, hnew⟩ :=
    create_snapshot_ok h.wal ⟨⟨index, term, n.pipe.actor.membership.confState⟩, data⟩ hlast htidy
  refine ⟨term, store, _, ?_, hwal, hsame, hold, hnew⟩
  simp only [NodeSys.pollSnapshot, hwait, hterm]
  rw [hok]

/-- Where there is no answer, `poll_snapshot` changes nothing but the phase, or stops the actor. -/
theorem Sys.noted_pollSnapshot {s : Sys} (hwait : s.actor.snapshotWait.join = none) :
    s.Noted (s.pollSnapshot none) := by
  rcases s.pollSnapshot_cases none with heq | heq | ⟨index, data, saved, hsome, -, heq⟩ <;> rw [heq]
  · exact .of_same rfl (fun _ => id) rfl rfl
  · exact .of_same rfl nofun rfl rfl
  · rw [hsome] at hwait
    cases hwait

theorem NodeSys.pollSnapshot_unanswered (hwait : n.pipe.actor.snapshotWait.join = none) :
    n.pollSnapshot = { n with pipe := n.pipe.pollSnapshot none } := by
  unfold NodeSys.pollSnapshot
  split
  · next index data hsome =>
      rw [hsome] at hwait
      cases hwait
  · rfl

theorem Sys.pollSnapshot_answered {s : Sys} {index : UInt64} {data : Bytes}
    (hwait : s.actor.snapshotWait = some (some (index, data))) (term : UInt64) :
    s.pollSnapshot (some term) = { s with
      actor.phase := .stepping
      actor.snapshotWait := none
      actor.book.snapshotIndex := index.toNat
      actor.book.appliedBytesAtSnapshot := s.actor.book.appliedBytesTotal
      history.created := ⟨⟨index, term, s.actor.membership.confState⟩, data⟩ :: s.history.created } := by
  simp only [Sys.pollSnapshot, hwait]

theorem NodeSys.Kept.poll (env : Env) (h : n.Kept opts log first) (htime : n.InTime .poll)
    (hrunning : n.pipe.actor.stopped = false) (hphase : n.pipe.actor.phase = .polling) :
    n.pollSnapshot.Kept opts log first := by
  have hstep (term : Option UInt64) : n.pipe.Step env log (.poll term) (n.pipe.pollSnapshot term) := by
    refine ⟨?_, fun _ _ h => by cases h⟩
    simp only [Sys.exec, hrunning, hphase]
  cases hwait : n.pipe.actor.snapshotWait.join with
  | none =>
      rw [NodeSys.pollSnapshot_unanswered hwait]
      exact h.of_noted (hstep none) (Sys.noted_pollSnapshot hwait) h.wal rfl rfl
  | some answer =>
      have hsome := Option.join_eq_some_iff.mp hwait
      obtain ⟨term, store, ops, heq, hwal, hlast, hold, hnew⟩ := h.collect htime hsome
      rw [heq]
      refine ⟨hwal, h.ordered.step (hstep (some term)), ?_, ?_, ?_, ?_⟩
      · rw [Sys.pollSnapshot_answered hsome, hlast]
        exact h.delivered
      · rw [Sys.pollSnapshot_answered hsome]
        exact fun _ h => by cases h
      · rw [Sys.pollSnapshot_answered hsome]
        exact fun _ h => by cases h
      · rw [Sys.pollSnapshot_answered hsome]
        exact Nat.le_trans hnew (Nat.le_max_right _ _)

theorem NodeSys.Kept.deliver (h : n.Kept opts log first) {snapshot : Option Snapshot} {entries : List CommittedEntry}
    {pipe : Sys} (hexec : n.pipe.exec env (.deliver snapshot entries) = some pipe)
    (hcontract : n.Contract log { n with pipe } (.step snapshot entries)) : NodeSys.Kept opts log first { n with pipe } := by
  obtain ⟨hdelivery, hlast, hsnap⟩ := hcontract
  have hstep : n.pipe.Step env log (.deliver snapshot entries) pipe := by
    refine ⟨hexec, ?_⟩
    rintro _ _ ⟨⟩
    exact hdelivery
  have hordered := h.ordered.step hstep
  cases Sys.moves_of_exec hexec with
  | deliver hphase =>
      refine ⟨h.wal, hordered, hlast, ?_, ?_, ?_⟩
      · intro snap hinstalling
        cases snapshot with
        | none => cases hinstalling
        | some snapshot =>
            obtain rfl := Phase.installing.inj hinstalling
            exact hsnap _ rfl
      · intro answer hanswer
        obtain ⟨hfirst, hle⟩ := h.answered answer hanswer
        have hgrows : n.pipe.history.delivered ≤ lastDelivered n.pipe.history.delivered snapshot entries := by
          rw [hdelivery.consecutive.lastDelivered_eq]
          cases snapshot with
          | none => exact Nat.le_add_right _ _
          | some snap => exact Nat.le_trans (hdelivery.above snap rfl) (Nat.le_add_right _ _)
        exact ⟨hfirst, Nat.le_trans hle hgrows⟩
      · show (entries.foldl (Book.stage env) n.pipe.actor.book).snapshotIndex ≤ _
        rw [Book.snapshotIndex_stageAll]
        exact h.noted

theorem NodeSys.Kept.persist (h : n.Kept opts log first) {op : Op} {store : WalStorage} (hready : ofReady op)
    (hok : op.exec opts n.store = .ok store) (hlast : n.pipe.history.delivered ≤ store.lastIndex) :
    NodeSys.Kept opts log first { n with store, ops := n.ops ++ [op] } := by
  have hmark := watermark_ofReady hready hok
  have htidy : CompactsTidily n.store op := by
    cases op with
    | compact compactTo => cases hready
    | _ => trivial
  refine ⟨.snoc h.wal ⟨htidy, hok⟩, h.ordered, hlast, ?_, h.answered, ?_⟩
  · intro snap hphase
    exact Nat.le_trans (h.installing snap hphase) hmark
  · exact Nat.le_trans h.noted (max_le_max_left first hmark)

theorem NodeSys.Kept.step (h : n.Kept opts log first) (htime : n.InTime a) (hstep : n.Step env opts log a n') :
    n'.Kept opts log first := by
  obtain ⟨hexec, hcontract⟩ := hstep
  cases NodeSys.moves_of_exec hexec with
  | pipe hpipe hdeliver hnoted => exact h.of_noted ⟨hpipe, fun _ _ hb => absurd hb (hdeliver _ _)⟩ hnoted h.wal rfl rfl
  | @change saved pipe hpipe hnoted =>
      have hb : n.pipe.Step env log (.change saved) pipe := ⟨hpipe, fun _ _ h => by cases h⟩
      unfold NodeSys.changed
      split_ifs
      · exact h.of_noted hb hnoted (.snoc h.wal ⟨trivial, rfl⟩) rfl rfl
      · exact h.of_noted hb hnoted h.wal rfl rfl
  | poll hrunning hphase => exact h.poll env htime hrunning hphase
  | persist hready hok => exact h.persist hready hok hcontract
  | step hpipe => exact h.deliver hpipe hcontract

theorem Sys.Noted.snapshotIndex_le {s s' : Sys} (h : s.Noted s') :
    s.actor.book.snapshotIndex ≤ s'.actor.book.snapshotIndex := by
  rcases h.index with hsame | ⟨snap, -, hmax⟩
  · rw [hsame]
  · rw [hmax]
    exact Nat.le_max_left _ _

/-- Nothing above an answer that is in time was recorded. -/
theorem NodeSys.Kept.snapshotIndex_le_poll (h : n.Kept opts log first) (htime : n.InTime .poll) :
    n.pipe.actor.book.snapshotIndex ≤ n.pollSnapshot.pipe.actor.book.snapshotIndex := by
  cases hwait : n.pipe.actor.snapshotWait.join with
  | none =>
      rw [NodeSys.pollSnapshot_unanswered hwait]
      exact (Sys.noted_pollSnapshot hwait).snapshotIndex_le
  | some answer =>
      have hsome := Option.join_eq_some_iff.mp hwait
      obtain ⟨term, store, ops, heq, -⟩ := h.collect htime hsome
      rw [heq, Sys.pollSnapshot_answered hsome]
      have hnoted := h.noted
      have hfirst := (h.answered answer hwait).1
      have hcovered := (htime answer hwait).1
      show n.pipe.actor.book.snapshotIndex ≤ answer.1.toNat
      omega

/-- The recorded index never decreases in a step that is in time. -/
theorem NodeSys.Kept.snapshotIndex_le (h : n.Kept opts log first) (htime : n.InTime a) (hstep : n.Step env opts log a n') :
    n.pipe.actor.book.snapshotIndex ≤ n'.pipe.actor.book.snapshotIndex := by
  cases NodeSys.moves_of_exec hstep.1 with
  | pipe hpipe hdeliver hnoted => exact hnoted.snapshotIndex_le
  | change hpipe hnoted =>
      unfold NodeSys.changed
      split_ifs <;> exact hnoted.snapshotIndex_le
  | poll hrunning hphase => exact h.snapshotIndex_le_poll htime
  | persist hready hok => exact Nat.le_refl _
  | @step snapshot entries pipe hpipe =>
      cases Sys.moves_of_exec hpipe with
      | deliver hphase =>
          show _ ≤ (entries.foldl (Book.stage env) n.pipe.actor.book).snapshotIndex
          rw [Book.snapshotIndex_stageAll]

/-- The steps with blank snapshots that keep raft's promises, for runs that are evaluated. -/
def NodeSys.execBlank (env : Env) (opts : WalOptions) (log : Nat → EntryType × Bytes) (n : NodeSys) (a : NodeAction) :
    Option NodeSys :=
  (n.exec env opts a).filter fun n' =>
    match a with
    | .persist _ => n.pipe.history.delivered ≤ n'.store.lastIndex
    | .step none entries =>
      Consecutive log n.pipe.history.delivered entries ∧
        lastDelivered n.pipe.history.delivered none entries ≤ n.store.lastIndex
    | .step (some snap) entries =>
      n.pipe.history.delivered ≤ snap.metadata.index.toNat ∧ snap = blankSnapshot snap.metadata.index ∧
        Consecutive log snap.metadata.index.toNat entries ∧
        lastDelivered n.pipe.history.delivered (some snap) entries ≤ n.store.lastIndex ∧
        snap.metadata.index.toNat ≤ WalStorage.watermark n.store.snapshot
    | _ => true

theorem NodeSys.step_of_execBlank (h : n.execBlank env opts log a = some n') : n.Step env opts log a n' := by
  obtain ⟨hexec, hcheck⟩ := Option.filter_eq_some_iff.mp h
  refine ⟨hexec, ?_⟩
  match a with
  | .persist _ =>
      have hlast : n.pipe.history.delivered ≤ n'.store.lastIndex := of_decide_eq_true hcheck
      exact hlast
  | .step none entries =>
      obtain ⟨hconsecutive, hlast⟩ := of_decide_eq_true hcheck
      exact ⟨⟨nofun, nofun, hconsecutive⟩, hlast, nofun⟩
  | .step (some snap) entries =>
      obtain ⟨habove, hblank, hconsecutive, hlast, hmark⟩ := of_decide_eq_true hcheck
      refine ⟨⟨?_, ?_, hconsecutive⟩, hlast, ?_⟩
      · intro snap' hsnap
        exact Option.some.inj hsnap ▸ habove
      · intro snap' hsnap
        exact Option.some.inj hsnap ▸ hblank ▸ serialized_blankSnapshot _
      · intro snap' hsnap
        exact Option.some.inj hsnap ▸ hmark
  | .pipe _ => trivial
  | .change _ => trivial
  | .poll => trivial

/-- An environment in which every applied entry is worth a snapshot. -/
def eager : Env := { narrow with capacity := 4, snapshotThresholdBytes := 1 }

/-- Entry 1 is committed and applied, and the actor asks for a snapshot of it. -/
def requestingActions : List NodeAction :=
  [ .pipe .absorb, .poll, .persist (.append [sampleEntry 1 1]), .step none [blankEntry 1], .pipe .pump, .pipe .pump,
    .pipe .finish, .pipe .take, .pipe .work, .pipe .work,
    .pipe .absorb, .poll, .step none [], .pipe .pump, .pipe .finish ]

/-- The task answers at once. -/
def promptActions : List NodeAction := requestingActions ++ [.pipe .take, .pipe .absorb]

/-- The task answers after the actor has looked, and raft installs a snapshot at 3 in the same cycle. -/
def tardyActions : List NodeAction :=
  requestingActions ++
    [ .pipe .absorb, .poll, .pipe .take, .persist (.installSnapshot (blankSnapshot 3)), .step (some (blankSnapshot 3)) [],
      .pipe .install, .pipe .pump, .pipe .finish, .pipe .absorb ]

end Arachne.Runtime.Pipeline
