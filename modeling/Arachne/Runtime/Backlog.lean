import Arachne.Runtime.Deferred

/-! # The backlog

The actor counts the bytes it enqueues, the apply task counts the bytes it applies, and the difference is the backlog
that turns proposals away. The two counters are in step as long as every entry that was counted on one side is
eventually counted on the other: what was sent is what was applied and what is still on its way (`Sys.Balanced`).

A snapshot that finds entries in the deferred batch breaks this. The entries are dropped, because the snapshot covers
them, but they stay counted as sent, and no progress of the task ever makes up for them
(`apply_backlog_leaks`). -/

namespace Arachne.Runtime.Pipeline

open Codec (Bytes)
open Client (Proposal)
open StateMachine (Store)
open Storage (EntryType Snapshot)

variable {env : Env} {log : Nat → EntryType × Bytes} {s s' : Sys} {a : Action}

/-! ## What is on its way -/

/-- What an entry counts for. -/
def entryBytes (entry : UInt64 × Bytes) : Nat := entry.2.length + entryFramingBytes

def entriesBytes (entries : List (UInt64 × Bytes)) : Nat := (entries.map entryBytes).sum

theorem entriesBytes_append (xs ys : List (UInt64 × Bytes)) :
    entriesBytes (xs ++ ys) = entriesBytes xs + entriesBytes ys := by
  rw [entriesBytes, List.map_append, List.sum_append]
  rfl

def ApplyRequest.entries : ApplyRequest → List (UInt64 × Bytes)
  | .batch b => b.entries
  | .snapshot => []

def batchEntries (batch : Option ApplyBatch) : List (UInt64 × Bytes) := batch.elim [] ApplyBatch.entries

/-- The entries that wait in the apply channel or in the deferred batch. -/
def Sys.waitingEntries (s : Sys) : List (UInt64 × Bytes) :=
  s.channel.flatMap ApplyRequest.entries ++ batchEntries s.actor.deferred

structure Sys.Balanced (s : Sys) : Prop where
  sent : s.actor.book.sentBytesTotal =
    s.task.appliedBytesTotal + entriesBytes (batchEntries s.task.working) + entriesBytes s.waitingEntries
  published : s.task.working = none → s.progress.appliedBytesTotal = s.task.appliedBytesTotal

/-- A snapshot finds no entries in the deferred batch. -/
def Sys.SparesEntries (s : Sys) : Action → Prop
  | .install => batchEntries s.actor.deferred = []
  | _ => True

instance decidableSparesEntries (s : Sys) (a : Action) : Decidable (s.SparesEntries a) :=
  match a with
  | .install => inferInstanceAs (Decidable (batchEntries s.actor.deferred = []))
  | .serve .. | .absorb | .poll _ | .deliver .. | .pump | .change _ | .finish | .halt | .take | .work | .close =>
    instDecidableTrue

/-! ## The books -/

theorem Book.sentBytesTotal_enqueueAll (env : Env) (b : Book) (entries : List (UInt64 × Bytes)) :
    (entries.foldl (Book.enqueue env) b).sentBytesTotal = b.sentBytesTotal + entriesBytes entries := by
  obtain ⟨sessions, sweep, heq⟩ := Book.enqueueAll_eq env b entries
  rw [heq]
  rfl

theorem Book.sentBytesTotal_noteInstall (b : Book) (snapshot : Option Snapshot) :
    (b.noteInstall snapshot).sentBytesTotal = b.sentBytesTotal := by
  cases snapshot <;> rfl

theorem Book.sentBytesTotal_stageAll (env : Env) (b : Book) (entries : List CommittedEntry) :
    (entries.foldl (Book.stage env) b).sentBytesTotal = b.sentBytesTotal := by
  obtain ⟨pendingConf, heq⟩ := Book.stageAll_eq env b entries
  rw [heq]

/-! ## Steps -/

/-- Enqueueing counts the new entries. What waits afterwards is what was in the channel and the merged batch. -/
theorem Sys.enqueueApply_bytes {snapshot : Option Snapshot} {entries : List (UInt64 × Bytes)}
    (h : s.enqueueApply env snapshot entries = some s') :
    s'.actor.book.sentBytesTotal = s.actor.book.sentBytesTotal + entriesBytes entries ∧
      s'.waitingEntries = s.channel.flatMap ApplyRequest.entries ++ (mergeBatch s.actor.deferred snapshot entries).entries ∧
      s'.task = s.task ∧ s'.progress = s.progress := by
  obtain ⟨hbook, htask, hprogress, -, -⟩ := Sys.enqueueApply_book h
  refine ⟨?_, ?_, htask, hprogress⟩
  · rw [hbook, Book.sentBytesTotal_enqueueAll, Book.sentBytesTotal_noteInstall]
  · rw [Sys.enqueueApply] at h
    split_ifs at h with hnothing
    · obtain rfl := Option.some.inj h
      obtain ⟨hsnapshot, rfl, hdeferred⟩ := hnothing
      rw [Option.isNone_iff_eq_none] at hsnapshot hdeferred
      rw [Sys.waitingEntries, hdeferred]
      rfl
    · simp only [Sys.flushDeferred] at h
      split_ifs at h
      · obtain rfl := Option.some.inj h
        simp [Sys.waitingEntries, ApplyRequest.entries, batchEntries]
      · obtain rfl := Option.some.inj h
        rfl

/-- A step that leaves the entries on their way, and the counters, as they are. -/
theorem Sys.Balanced.of_same (h : s.Balanced) (hbook : s'.actor.book.sentBytesTotal = s.actor.book.sentBytesTotal)
    (hwaiting : s'.waitingEntries = s.waitingEntries) (hworking : s'.task.working = s.task.working)
    (hbytes : s'.task.appliedBytesTotal = s.task.appliedBytesTotal)
    (hprogress : s'.progress.appliedBytesTotal = s.progress.appliedBytesTotal) : s'.Balanced := by
  refine ⟨?_, ?_⟩
  · rw [hbook, hwaiting, hworking, hbytes]
    exact h.sent
  · rw [hworking, hbytes, hprogress]
    exact h.published

theorem Sys.Balanced.orStop (h : s.Balanced) {popped : Sys} {snapshot : Option Snapshot}
    {entries : List (UInt64 × Bytes)} {phase : Phase} (hbook : popped.actor.book = s.actor.book)
    (hdeferred : popped.actor.deferred = s.actor.deferred) (hchannel : popped.channel = s.channel)
    (htask : popped.task = s.task) (hprogress : popped.progress = s.progress)
    (hmerge : (mergeBatch s.actor.deferred snapshot entries).entries = batchEntries s.actor.deferred ++ entries) :
    (s.orStop phase (popped.enqueueApply env snapshot entries)).Balanced := by
  cases henqueue : popped.enqueueApply env snapshot entries with
  | none => exact h.of_same rfl rfl rfl rfl rfl
  | some s' =>
      obtain ⟨hsent, hwaiting, htask', hprogress'⟩ := Sys.enqueueApply_bytes henqueue
      rw [hdeferred, hchannel, hmerge, ← List.append_assoc] at hwaiting
      refine ⟨?_, ?_⟩
      · show s'.actor.book.sentBytesTotal = s'.task.appliedBytesTotal + _ + entriesBytes s'.waitingEntries
        have htask'' : (s.orStop phase (some s')).task = s.task := htask'.trans htask
        rw [hsent, hbook, hwaiting, htask'', htask', htask, entriesBytes_append, h.sent, Sys.waitingEntries]
        exact Nat.add_assoc _ _ _
      · show s'.task.working = none → s'.progress.appliedBytesTotal = s'.task.appliedBytesTotal
        rw [htask', hprogress', htask, hprogress]
        exact h.published

theorem entries_mergeBatch_none (waiting : Option ApplyBatch) (entries : List (UInt64 × Bytes)) :
    (mergeBatch waiting none entries).entries = batchEntries waiting ++ entries := by
  cases waiting <;> rfl

/-- With nothing to drop, a snapshot is like any other work. -/
theorem entries_mergeBatch_some {waiting : Option ApplyBatch} (h : batchEntries waiting = []) (snapshot : Snapshot)
    (entries : List (UInt64 × Bytes)) :
    (mergeBatch waiting (some snapshot) entries).entries = batchEntries waiting ++ entries := by
  rw [h]
  cases waiting <;> rfl

theorem Sys.Balanced.pump (h : s.Balanced) : (s.pumpCommitted env).Balanced := by
  unfold Sys.pumpCommitted
  split
  · exact h.of_same rfl rfl rfl rfl rfl
  · split_ifs
    · exact h.orStop rfl rfl rfl rfl rfl (entries_mergeBatch_none _ _)
    · exact h.of_same rfl rfl rfl rfl rfl
    · exact h.orStop rfl rfl rfl rfl rfl (entries_mergeBatch_none _ _)

/-- A task that fails publishes what it has counted, and keeps its request. -/
theorem Sys.Balanced.fail (h : s.Balanced) (failure : ApplyFailure) : (s.fail failure).Balanced :=
  ⟨h.sent, fun _ => rfl⟩

/-- **The task's side.** An entry that is applied moves from what is on its way to what is counted. -/
theorem Sys.Balanced.work (h : s.Balanced) {batch : ApplyBatch} (hworking : s.task.working = some batch) :
    (s.work batch).Balanced := by
  have hsent := h.sent
  rw [hworking] at hsent
  -- a snapshot that fails or is restored, an entry that fails or is applied, and the end of the batch
  fun_cases Sys.work s batch with
  | case1 snapshot entries e sm hrestore =>
      have hkept : Sys.Balanced { s with task.sm := sm } := h.of_same rfl rfl rfl rfl rfl
      exact hkept.fail _
  | case3 index data rest e sm happly =>
      have hkept : Sys.Balanced { s with task.sm := sm } := h.of_same rfl rfl rfl rfl rfl
      exact hkept.fail _
  | case2 => exact ⟨hsent, fun h => by cases h⟩
  | case4 index data rest applied sm happly =>
      refine ⟨?_, fun h => by cases h⟩
      show s.actor.book.sentBytesTotal =
        s.task.appliedBytesTotal + data.length + entryFramingBytes + entriesBytes rest + entriesBytes s.waitingEntries
      have hcons : entriesBytes ((index, data) :: rest) = data.length + entryFramingBytes + entriesBytes rest := rfl
      have hentries : batchEntries (some ⟨none, (index, data) :: rest⟩) = (index, data) :: rest := rfl
      rw [hentries, hcons] at hsent
      omega
  | case5 => exact ⟨hsent, fun _ => rfl⟩

theorem Sys.Balanced.take (h : s.Balanced) (hworking : s.task.working = none) (htake : s.takeRequest = some s') :
    s'.Balanced := by
  have hsent := h.sent
  rw [hworking] at hsent
  rcases Sys.takeRequest_eq_some htake with ⟨batch, rest, hchannel, rfl⟩ | ⟨rest, hchannel, rfl⟩
  · refine ⟨?_, nofun⟩
    show s.actor.book.sentBytesTotal = s.task.appliedBytesTotal + entriesBytes batch.entries +
      entriesBytes (rest.flatMap ApplyRequest.entries ++ batchEntries s.actor.deferred)
    have hnone : entriesBytes (batchEntries none) = 0 := rfl
    have hbatch : (ApplyRequest.batch batch).entries = batch.entries := rfl
    rw [Sys.waitingEntries, hchannel, List.flatMap_cons, List.append_assoc, entriesBytes_append, hnone, hbatch] at hsent
    omega
  · refine h.of_same rfl ?_ rfl rfl rfl
    rw [Sys.waitingEntries, Sys.waitingEntries, hchannel]
    rfl

theorem Sys.Balanced.step (h : s.Balanced) (hspares : s.SparesEntries a) (hstep : s.Step env log a s') : s'.Balanced := by
  cases Sys.moves_of_exec hstep.1 with
  | deliver hphase => exact h.of_same (Book.sentBytesTotal_stageAll env _ _) rfl rfl rfl rfl
  | install hphase => exact h.orStop rfl rfl rfl rfl rfl (entries_mergeBatch_some hspares _ _)
  | pump hphase => exact h.pump
  | @poll term hphase =>
      rcases s.pollSnapshot_cases term with heq | heq | ⟨index, data, saved, -, -, heq⟩
      all_goals
        rw [heq]
        exact h.of_same rfl rfl rfl rfl rfl
  | change hphase hrunning =>
      simp only [Sys.changeMembership]
      split <;> exact h.of_same rfl rfl rfl rfl rfl
  | finish hphase =>
      rcases s.maybeSnapshot_cases env with heq | heq | heq <;> rw [heq]
      · exact h.of_same rfl rfl rfl rfl rfl
      · exact h.of_same rfl rfl rfl rfl rfl
      · refine h.of_same rfl ?_ rfl rfl rfl
        -- a request for a snapshot carries no entries
        show (s.channel ++ [ApplyRequest.snapshot]).flatMap ApplyRequest.entries ++ _ = s.channel.flatMap ApplyRequest.entries ++ _
        rw [List.flatMap_append]
        exact congrArg (· ++ _) (List.append_nil _)
  | take hfailed hworking htake => exact h.take hworking htake
  | work hfailed hworking => exact h.work hworking
  | close hfailed => exact ⟨h.sent, h.published⟩
  | _ => exact h.of_same rfl rfl rfl rfl rfl

/-! ## Runs -/

/-- **The backlog is exact** as long as no snapshot finds entries in the deferred batch. When the task is between two
requests and its progress is absorbed, the backlog is what waits. If nothing waits it is zero, and no proposal is turned
away for it. -/
theorem apply_backlog_exact {Addr : Type} {sm : Store} {membership : Membership} {clock : Option Nat} {ops : List Action}
    (h : Transition.Run (· = Sys.start sm membership clock) (fun s a s' => s.SparesEntries a ∧ s.Step env log a s') ops s)
    (hidle : s.task.working = none) (habsorbed : s.actor.book.appliedBytesTotal = s.progress.appliedBytesTotal)
    (p : Proposer Addr) (hsent : p.sentBytesTotal = s.actor.book.sentBytesTotal)
    (happlied : p.appliedBytesTotal = s.actor.book.appliedBytesTotal) :
    p.applyBacklogBytes = entriesBytes s.waitingEntries ∧
      (s.waitingEntries = [] → p.applyBacklogBytes = 0 ∧
        (0 < p.proposalQueueBytes → ∀ proposal shape, p.startProposal proposal shape ≠ .error .busy)) := by
  have hbalanced : s.Balanced := by
    refine h.invariant (P := fun _ s => s.Balanced) ?_ fun _ _ _ _ _ hs hstep => hs.step hstep.1 hstep.2
    rintro s rfl
    exact ⟨rfl, fun _ => rfl⟩
  have hbacklog : p.applyBacklogBytes = entriesBytes s.waitingEntries := by
    have htotal := hbalanced.sent
    have hentries : entriesBytes (batchEntries none) = 0 := rfl
    rw [hidle, hentries] at htotal
    rw [Proposer.applyBacklogBytes, hsent, happlied, habsorbed, hbalanced.published hidle, htotal]
    omega
  refine ⟨hbacklog, ?_⟩
  intro hnothing
  have hzero : p.applyBacklogBytes = 0 := by
    rw [hbacklog, hnothing]
    rfl
  refine ⟨hzero, ?_⟩
  intro hbound proposal shape hbusy
  unfold Proposer.startProposal at hbusy
  rw [hzero] at hbusy
  simp only [ge_iff_le, Nat.not_le.mpr hbound, if_false] at hbusy
  split_ifs at hbusy <;> cases hbusy

/-- The actor's counters, in front of a bound of 24 bytes. -/
def Book.proposer (b : Book) : Proposer Unit :=
  { idleLeader with
    sentBytesTotal := b.sentBytesTotal, appliedBytesTotal := b.appliedBytesTotal, proposalQueueBytes := 24 }

/-- A snapshot arrives when the first entry is applied, and an entry behind it. -/
def sparingActions : List Action :=
  blankCycle 1 ++ [.take, .work, .work, .absorb, .poll none, .deliver (some (blankSnapshot 3)) [], .install, .pump, .finish] ++
    blankCycle 4 ++ [.absorb]

theorem apply_backlog_exact_sparing :
    ∃ s, Transition.Run (· = Sys.start .new noMembers none)
        (fun s a s' => s.SparesEntries a ∧ s.Step narrow blankLog a s') sparingActions s ∧
      s.waitingEntries = [(4, [])] ∧ s.actor.book.proposer.applyBacklogBytes = entriesBytes s.waitingEntries := by
  have heval : (sparingActions.foldlM (fun s a => if Sys.SparesEntries s a then s.execBlank narrow blankLog a else none)
      (Sys.start .new noMembers none)).any (fun s =>
        s.waitingEntries = [(4, [])] ∧ s.task.working = none ∧
          s.actor.book.appliedBytesTotal = s.progress.appliedBytesTotal) := by
    decide +kernel
  obtain ⟨s, hs, hfacts⟩ := (Option.any_eq_true _ _).mp heval
  obtain ⟨hwaiting, hidle, habsorbed⟩ := of_decide_eq_true hfacts
  have hrun : Transition.Run (· = Sys.start .new noMembers none)
      (fun s a s' => s.SparesEntries a ∧ s.Step narrow blankLog a s') sparingActions s := by
    refine Transition.Run.of_foldlM (fun s a s' h => ?_) rfl hs
    obtain ⟨hspares, h⟩ := Option.ite_none_right_eq_some.mp h
    exact ⟨hspares, Sys.step_of_execBlank h⟩
  exact ⟨s, hrun, hwaiting, (apply_backlog_exact hrun hidle habsorbed s.actor.book.proposer rfl rfl).1⟩

/-! ## A backlog of nothing -/

/-- The first entry fills the channel and the second has to wait. A snapshot at 3 takes its place. The task works
everything off, the entry behind the snapshot included, and its progress is absorbed. -/
def leakingActions : List Action :=
  blankCycle 1 ++ blankCycle 2 ++
    [ .absorb, .poll none, .deliver (some (blankSnapshot 3)) [], .install, .pump, .finish, .take, .work, .work ] ++
    blankCycle 4 ++ [.take, .work, .work, .work, .absorb]

/-- **The backlog leaks.** Nothing waits and everything is applied and absorbed, and the entry that the snapshot covered
still counts. A proposal is turned away for it. -/
theorem apply_backlog_leaks :
    ∃ s, PipelineRun narrow blankLog (Sys.start .new noMembers none) leakingActions s ∧ s.waiting = [] ∧
      s.waitingEntries = [] ∧ s.task.working = none ∧ s.task.sm.applied = 4 ∧
      s.actor.book.appliedBytesTotal = s.progress.appliedBytesTotal ∧ s.actor.book.proposer.applyBacklogBytes = 24 ∧
      ∀ proposal shape, s.actor.book.proposer.startProposal proposal shape = .error .busy := by
  have heval : (leakingActions.foldlM (Sys.execBlank narrow blankLog) (Sys.start .new noMembers none)).any (fun s =>
      s.waiting = [] ∧ s.waitingEntries = [] ∧ s.task.working = none ∧ s.task.sm.applied = 4 ∧
        s.actor.book.appliedBytesTotal = s.progress.appliedBytesTotal ∧
        s.actor.book.proposer.applyBacklogBytes = 24) := by
    decide +kernel
  obtain ⟨s, hs, hfacts⟩ := (Option.any_eq_true _ _).mp heval
  obtain ⟨hwaiting, hentries, hidle, happlied, habsorbed, hbacklog⟩ := of_decide_eq_true hfacts
  refine ⟨s, .of_foldlM (fun _ _ _ => Sys.step_of_execBlank) rfl hs, hwaiting, hentries, hidle, happlied, habsorbed,
    hbacklog, ?_⟩
  intro proposal shape
  unfold Proposer.startProposal
  rw [hbacklog]
  rfl

end Arachne.Runtime.Pipeline
