import Arachne.Runtime.Pipeline
import Mathlib.Data.List.TakeWhile

/-! # What the state machine is fed

The four places where committed work waits are one queue: what the task has in hand, the channel, the deferred
batch and the staged entries, in this order. `Sys.view` forgets everything else, and each step of actor or task
is a step of the `Feed.Pipe` it shows, or none (`view_step`). Handing work over moves it from one place to the
next and does not show at all. -/

namespace Arachne.Runtime.Pipeline

open Codec (Bytes)
open Feed (Item Follows Pipe)
open StateMachine (Store KvError SessionKey commandSession decodeStore)
open Storage (EntryType Snapshot)

variable {env : Env} {log : Nat → EntryType × Bytes} {s s' : Sys} {a : Action}

/-! ## The places -/

def entryItem (e : UInt64 × Bytes) : Item Bytes := .entry e.1.toNat e.2

def restoreItem (snapshot : Snapshot) : Item Bytes := .restore snapshot.metadata.index.toNat

def ApplyBatch.items (b : ApplyBatch) : List (Item Bytes) :=
  (b.snapshot.map restoreItem).toList ++ b.entries.map entryItem

def ApplyRequest.items : ApplyRequest → List (Item Bytes)
  | .batch b => b.items
  | .snapshot => []

def batchItems (b : Option ApplyBatch) : List (Item Bytes) := b.elim [] ApplyBatch.items

def CommittedEntry.item (e : CommittedEntry) : Item Bytes := .entry e.index.toNat (payload (e.kind, e.data))

/-- What has left the actor. -/
def Sys.sent (s : Sys) : List (Item Bytes) := batchItems s.task.working ++ s.channel.flatMap ApplyRequest.items

/-- What the actor is about to hand over. A snapshot that is being installed will replace the deferred
batch. -/
def Sys.held (s : Sys) : List (Item Bytes) :=
  match s.actor.phase with
  | .installing snapshot => [restoreItem snapshot]
  | _ => batchItems s.actor.deferred

def Sys.waiting (s : Sys) : List (Item Bytes) := s.sent ++ (s.held ++ s.actor.committedQueue.map CommittedEntry.item)

def Sys.view (s : Sys) : Pipe Bytes where
  fed := s.history.fed
  waiting := s.waiting
  delivered := s.history.delivered
  installs := s.history.installs
  superseded := s.history.superseded

/-- Outside an installation, the deferred batch is what is held. -/
theorem Sys.held_eq (h : ∀ snapshot, s.actor.phase ≠ .installing snapshot) : s.held = batchItems s.actor.deferred := by
  rw [Sys.held]
  split
  · next snapshot hphase => exact absurd hphase (h snapshot)
  · rfl

/-! ## The books -/

/-- The proposals once the entry is handed over: the first one that waits for its session has its index. -/
def attributed (pending : List Pending) (entry : UInt64 × Bytes) : List Pending :=
  match commandSession entry.2 with
  | some session =>
    markFirst (fun p => p.index.isNone && p.clientId == session.clientId && p.seqNo == session.seqNo)
      (fun p => { p with index := some entry.1 }) pending
  | none => pending

theorem Book.noteSession_eq (env : Env) (b : Book) (session : SessionKey) :
    ∃ sessions sweep, b.noteSession env session = { b with sessions := sessions, nextSessionSweep := sweep } := by
  unfold Book.noteSession
  split
  · exact ⟨_, _, rfl⟩
  · split_ifs
    · exact ⟨_, _, rfl⟩
    · exact ⟨_, _, rfl⟩
    · exact ⟨_, _, rfl⟩

theorem Book.enqueue_eq (env : Env) (b : Book) (entry : UInt64 × Bytes) :
    ∃ sessions sweep, b.enqueue env entry = { b with
      pending := attributed b.pending entry, sessions := sessions, nextSessionSweep := sweep,
      sentBytesTotal := b.sentBytesTotal + entry.2.length + entryFramingBytes } := by
  cases hsession : commandSession entry.2 with
  | none =>
      simp only [Book.enqueue, attributed, hsession]
      exact ⟨_, _, rfl⟩
  | some session =>
      obtain ⟨sessions, sweep, hnote⟩ := Book.noteSession_eq env (b.attribute session entry.1) session
      simp only [Book.enqueue, attributed, hsession, hnote]
      exact ⟨_, _, rfl⟩

/-- **What handing entries over notes**: the proposals they answer, the sessions they use, and their bytes. -/
theorem Book.enqueueAll_eq (env : Env) (b : Book) (entries : List (UInt64 × Bytes)) :
    ∃ sessions sweep, entries.foldl (Book.enqueue env) b = { b with
      pending := entries.foldl attributed b.pending, sessions := sessions, nextSessionSweep := sweep,
      sentBytesTotal := b.sentBytesTotal + (entries.map fun e => e.2.length + entryFramingBytes).sum } := by
  induction entries generalizing b with
  | nil => exact ⟨_, _, rfl⟩
  | cons entry entries ih =>
      obtain ⟨_, _, hentry⟩ := Book.enqueue_eq env b entry
      obtain ⟨sessions, sweep, hrest⟩ := ih (b.enqueue env entry)
      refine ⟨sessions, sweep, ?_⟩
      rw [List.foldl_cons, hrest, hentry, List.foldl_cons, List.map_cons, List.sum_cons, ← Nat.add_assoc, ← Nat.add_assoc]

theorem Book.stageAll_eq (env : Env) (b : Book) (entries : List CommittedEntry) :
    ∃ pendingConf, entries.foldl (Book.stage env) b = { b with pendingConf := pendingConf } := by
  induction entries generalizing b with
  | nil => exact ⟨_, rfl⟩
  | cons e entries ih =>
      obtain ⟨pendingConf, heq⟩ := ih (b.stage env e)
      refine ⟨pendingConf, ?_⟩
      rw [List.foldl_cons, heq]
      unfold Book.stage
      split <;> rfl

/-! ## Handing over -/

theorem items_mergeBatch_none (waiting : Option ApplyBatch) (entries : List (UInt64 × Bytes)) :
    (mergeBatch waiting none entries).items = batchItems waiting ++ entries.map entryItem := by
  cases waiting with
  | none => rfl
  | some batch => simp [mergeBatch, ApplyBatch.items, batchItems]

theorem items_mergeBatch_some (waiting : Option ApplyBatch) (snapshot : Snapshot) (entries : List (UInt64 × Bytes)) :
    (mergeBatch waiting (some snapshot) entries).items = restoreItem snapshot :: entries.map entryItem := by
  cases waiting with
  | none => rfl
  | some batch => rfl

/-- **What `enqueue_apply` does**: the merged batch is behind everything in the channel, inside the channel or
still outside. -/
theorem Sys.enqueueApply_eq {snapshot : Option Snapshot} {entries : List (UInt64 × Bytes)}
    (h : s.enqueueApply env snapshot entries = some s') :
    ∃ book deferred channel handOver,
      s' = { s with
        actor.book := book, actor.deferred := deferred, channel := channel, history.handOver := handOver } ∧
      channel.flatMap ApplyRequest.items ++ batchItems deferred =
        s.channel.flatMap ApplyRequest.items ++ (mergeBatch s.actor.deferred snapshot entries).items ∧
      ∀ batch, .batch batch ∈ channel ∨ deferred = some batch →
        .batch batch ∈ s.channel ∨ batch = mergeBatch s.actor.deferred snapshot entries := by
  rw [Sys.enqueueApply] at h
  split_ifs at h with hnothing
  · -- Nothing to do: the merged batch would be empty.
    obtain rfl := Option.some.inj h
    obtain ⟨hsnapshot, rfl, hdeferred⟩ := hnothing
    rw [Option.isNone_iff_eq_none] at hsnapshot hdeferred
    subst hsnapshot
    refine ⟨_, _, _, _, rfl, ?_, fun batch hbatch => .inl (hbatch.resolve_right ?_)⟩
    · rw [items_mergeBatch_none, List.map_nil, List.append_nil]
    · rw [hdeferred]
      exact nofun
  · simp only [Sys.flushDeferred] at h
    split_ifs at h
    · obtain rfl := Option.some.inj h
      refine ⟨_, _, _, _, rfl, ?_, fun batch hbatch => ?_⟩
      · simp [ApplyRequest.items, batchItems]
      · simpa using hbatch
    · obtain rfl := Option.some.inj h
      refine ⟨_, _, _, _, rfl, rfl, fun batch hbatch => hbatch.imp_right fun h => ?_⟩
      exact (Option.some.inj h).symm

/-- What `enqueue_apply` notes, and what it has no part in. -/
theorem Sys.enqueueApply_book {snapshot : Option Snapshot} {entries : List (UInt64 × Bytes)}
    (h : s.enqueueApply env snapshot entries = some s') :
    s'.actor.book = entries.foldl (Book.enqueue env) (s.actor.book.noteInstall snapshot) ∧ s'.task = s.task ∧
      s'.progress = s.progress ∧ s'.actor.snapshotWait = s.actor.snapshotWait ∧
      s'.history.delivered = s.history.delivered := by
  rw [Sys.enqueueApply] at h
  split_ifs at h with hnothing
  · obtain rfl := Option.some.inj h
    obtain ⟨hsnapshot, rfl, -⟩ := hnothing
    rw [Option.isNone_iff_eq_none] at hsnapshot
    subst hsnapshot
    exact ⟨rfl, rfl, rfl, rfl, rfl⟩
  · simp only [Sys.flushDeferred] at h
    split_ifs at h
    · obtain rfl := Option.some.inj h
      exact ⟨rfl, rfl, rfl, rfl, rfl⟩
    · obtain rfl := Option.some.inj h
      exact ⟨rfl, rfl, rfl, rfl, rfl⟩

/-- Either the actor stops where it is, or the work is behind everything in the channel. -/
theorem Sys.orStop_enqueueApply (env : Env) (s popped : Sys) (snapshot : Option Snapshot)
    (entries : List (UInt64 × Bytes)) (phase : Phase) :
    s.orStop phase (popped.enqueueApply env snapshot entries) = s.stop ∨
      ∃ book deferred channel handOver,
        s.orStop phase (popped.enqueueApply env snapshot entries) = { popped with
          actor.book := book, actor.deferred := deferred, actor.phase := phase, channel := channel,
          history.handOver := handOver } ∧
        channel.flatMap ApplyRequest.items ++ batchItems deferred =
          popped.channel.flatMap ApplyRequest.items ++ (mergeBatch popped.actor.deferred snapshot entries).items ∧
        ∀ batch, .batch batch ∈ channel ∨ deferred = some batch →
          .batch batch ∈ popped.channel ∨ batch = mergeBatch popped.actor.deferred snapshot entries := by
  cases henqueue : popped.enqueueApply env snapshot entries with
  | none => exact .inl rfl
  | some s' =>
      obtain ⟨book, deferred, channel, handOver, rfl, hitems, hnew⟩ := Sys.enqueueApply_eq henqueue
      exact .inr ⟨book, deferred, channel, handOver, rfl, hitems, hnew⟩

/-- The pipeline as it looks once a snapshot or entries are enqueued. -/
theorem Sys.view_orStop {popped : Sys} {snapshot : Option Snapshot} {entries : List (UInt64 × Bytes)} {phase : Phase}
    (hphase : ∀ snapshot, phase ≠ .installing snapshot) (hhistory : popped.history = s.history)
    (hsent : popped.sent = s.sent)
    (hheld : s.held ++ s.actor.committedQueue.map CommittedEntry.item =
      (mergeBatch popped.actor.deferred snapshot entries).items ++
        popped.actor.committedQueue.map CommittedEntry.item) :
    (s.orStop phase (popped.enqueueApply env snapshot entries)).view = s.view := by
  rcases Sys.orStop_enqueueApply env s popped snapshot entries phase with
    heq | ⟨book, deferred, channel, handOver, heq, hitems, -⟩ <;> rw [heq]
  · rfl
  · simp only [Sys.view, hhistory, Pipe.mk.injEq, true_and, and_true]
    rw [Sys.waiting, Sys.waiting, hheld, ← hsent, Sys.held_eq hphase]
    simp only [Sys.sent, List.append_assoc]
    rw [← List.append_assoc (channel.flatMap _), hitems, List.append_assoc]

/-! ## Deliveries -/

theorem Consecutive.items {w : Nat} {entries : List CommittedEntry} (h : Consecutive log w entries) :
    entries.map CommittedEntry.item = Feed.entries (payload ∘ log) w (w + entries.length) := by
  induction entries generalizing w with
  | nil => exact (Feed.entries_self _ w).symm
  | cons e entries ih =>
      obtain ⟨hindex, hdata, hrest⟩ := h
      have hhead : Feed.entries (payload ∘ log) w (w + 1) = [e.item] := by
        rw [CommittedEntry.item, hindex, hdata, Feed.entries, Nat.add_sub_cancel_left]
        rfl
      rw [List.map_cons, ih hrest, ← List.singleton_append, ← hhead, List.length_cons,
        Feed.entries_append _ (by omega) (by omega)]
      congr 1
      omega

theorem Consecutive.getLast {w : Nat} {entries : List CommittedEntry} {e : CommittedEntry} (h : Consecutive log w entries)
    (hlast : entries.getLast? = some e) : e.index.toNat = w + entries.length := by
  induction entries generalizing w with
  | nil => cases hlast
  | cons e' entries ih =>
      obtain ⟨hindex, -, hrest⟩ := h
      cases entries with
      | nil =>
          obtain rfl := Option.some.inj hlast
          exact hindex
      | cons e'' entries =>
          rw [ih hrest hlast, List.length_cons (a := e'), Nat.add_right_comm, Nat.add_assoc]

theorem Consecutive.lastDelivered_eq {delivered : Nat} {snapshot : Option Snapshot} {entries : List CommittedEntry}
    (h : Consecutive log (snapshot.elim delivered fun snap => snap.metadata.index.toNat) entries) :
    lastDelivered delivered snapshot entries =
      (snapshot.elim delivered fun snap => snap.metadata.index.toNat) + entries.length := by
  cases hlast : entries.getLast? with
  | some e => simpa only [lastDelivered, hlast] using h.getLast hlast
  | none =>
      obtain rfl := List.getLast?_eq_none_iff.mp hlast
      cases snapshot with
      | none => rfl
      | some snap => rfl

/-- A queue holds no snapshots. -/
theorem filterMap_restoreIndex_queue (queue : List CommittedEntry) :
    (queue.map CommittedEntry.item).filterMap Item.restoreIndex = [] := by
  rw [List.filterMap_map, List.filterMap_eq_nil_iff]
  exact fun _ _ => rfl

theorem filterMap_restoreIndex_batch (waiting : Option ApplyBatch) (snapshot : Snapshot) :
    (batchItems waiting).filterMap Item.restoreIndex = supersededBy waiting (some snapshot) := by
  have hentries (entries : List (UInt64 × Bytes)) : (entries.map entryItem).filterMap Item.restoreIndex = [] := by
    rw [List.filterMap_map, List.filterMap_eq_nil_iff]
    exact fun _ _ => rfl
  rcases waiting with _ | ⟨_ | old, entries⟩
  · rfl
  · exact hentries entries
  · exact congrArg (old.metadata.index.toNat :: ·) (hentries entries)

theorem supersededBy_none (waiting : Option ApplyBatch) : supersededBy waiting none = [] := by
  rcases waiting with _ | ⟨_ | old, entries⟩ <;> rfl

/-- Entries join the queue. -/
theorem Sys.view_deliver_none {entries : List CommittedEntry} (hphase : s.actor.phase = .stepping)
    (hd : Delivery log s.history.delivered none entries) :
    s.view.Step (payload ∘ log) (s.stageCommitted env none entries).view := by
  have hview : (s.stageCommitted env none entries).view = { s.view with
      waiting := s.waiting ++ Feed.entries (payload ∘ log) s.history.delivered (s.history.delivered + entries.length)
      delivered := s.history.delivered + entries.length } := by
    have hlast : lastDelivered s.history.delivered none entries = _ := hd.consecutive.lastDelivered_eq
    have hitems : entries.map CommittedEntry.item = _ := hd.consecutive.items
    simp only [Option.elim_none] at hlast hitems
    simp only [Sys.view, Sys.stageCommitted, hlast, supersededBy_none, Option.map_none, Option.toList_none,
      List.nil_append, List.append_nil, Sys.waiting, Sys.sent, Sys.held, hphase, retainAbove, Option.elim_none,
      List.map_append, hitems, List.append_assoc]
  rw [hview]
  exact .deliver s.view (Nat.le_add_right _ _)

/-- A snapshot takes the place of what the actor still holds. -/
theorem Sys.view_deliver_some {snapshot : Snapshot} {entries : List CommittedEntry} {start : Nat}
    (hsound : s.view.Sound (payload ∘ log) start) (hphase : s.actor.phase = .stepping)
    (hd : Delivery log s.history.delivered (some snapshot) entries) :
    s.view.Step (payload ∘ log) (s.stageCommitted env (some snapshot) entries).view := by
  have habove : s.history.delivered ≤ snapshot.metadata.index.toNat := hd.above snapshot rfl
  have hheld : s.held = batchItems s.actor.deferred := Sys.held_eq fun snap h => by rw [hphase] at h; cases h
  -- Everything in the queue was delivered before, so nothing is retained.
  have hretain : retainAbove (some snapshot) s.actor.committedQueue = [] := by
    refine List.filter_eq_nil_iff.mpr fun e he => ?_
    have hmem : e.item ∈ s.view.fed ++ s.view.waiting :=
      List.mem_append_right _ (List.mem_append_right _ (List.mem_append_right _ (List.mem_map_of_mem he)))
    have hle : e.index.toNat ≤ s.history.delivered := (hsound.follows.index_le hmem).2
    rw [decide_eq_true_eq, gt_iff_lt, UInt64.lt_iff_toNat_lt]
    omega
  have hview : (s.stageCommitted env (some snapshot) entries).view = {
      fed := s.view.fed
      waiting := s.sent ++ restoreItem snapshot :: Feed.entries (payload ∘ log) snapshot.metadata.index.toNat
        (snapshot.metadata.index.toNat + entries.length)
      delivered := snapshot.metadata.index.toNat + entries.length
      installs := snapshot.metadata.index.toNat :: s.view.installs
      superseded := s.view.superseded ++
        (s.held ++ s.actor.committedQueue.map CommittedEntry.item).filterMap Item.restoreIndex } := by
    have hlast : lastDelivered s.history.delivered (some snapshot) entries = _ := hd.consecutive.lastDelivered_eq
    have hitems : entries.map CommittedEntry.item = _ := hd.consecutive.items
    simp only [Option.elim_some] at hlast hitems
    rw [List.filterMap_append, filterMap_restoreIndex_queue, List.append_nil, hheld,
      filterMap_restoreIndex_batch _ snapshot]
    simp only [Sys.view, Sys.stageCommitted, hlast, hretain, hitems, Option.map_some, Option.toList_some,
      Option.elim_some, List.nil_append, List.singleton_append, Sys.waiting, Sys.sent, Sys.held]
  rw [hview]
  exact .install s.view rfl habove (Nat.le_add_right _ _)

/-! ## Steps -/

/-- A normal entry is handed over as it is. -/
theorem CommittedEntry.item_of_isNormal {e : CommittedEntry} (h : e.isNormal) : e.item = entryItem (e.index, e.data) := by
  rw [CommittedEntry.item, of_decide_eq_true h]
  rfl

/-- A membership change is handed over as a no-op. -/
theorem CommittedEntry.item_of_not_isNormal {e : CommittedEntry} (h : ¬ e.isNormal) : e.item = entryItem (e.index, []) := by
  rcases e with ⟨index, _ | _ | _, data⟩
  · exact absurd rfl h
  · rfl
  · rfl

theorem Sys.view_pumpCommitted (hphase : s.actor.phase = .pumping) : (s.pumpCommitted env).view = s.view := by
  have hheld : s.held = batchItems s.actor.deferred := Sys.held_eq fun snap h => by rw [hphase] at h; cases h
  rw [Sys.pumpCommitted]
  split
  · simp only [Sys.view, Sys.waiting, Sys.sent, Sys.held, hphase]
  · next e rest hqueue =>
    split_ifs with hnormal hbarrier
    · refine Sys.view_orStop (fun _ => nofun) rfl rfl ?_
      have hrun : ((e :: rest).takeWhile CommittedEntry.isNormal).map CommittedEntry.item =
          (((e :: rest).takeWhile CommittedEntry.isNormal).map fun e => (e.index, e.data)).map entryItem := by
        rw [List.map_map]
        exact List.map_congr_left fun e he => CommittedEntry.item_of_isNormal (List.mem_takeWhile_imp he)
      rw [hheld, hqueue, items_mergeBatch_none, ← hrun, List.append_assoc, ← List.map_append,
        List.takeWhile_append_dropWhile]
    · simp only [Sys.view, Sys.waiting, Sys.sent, Sys.held, hphase]
    · refine Sys.view_orStop (fun _ => nofun) rfl rfl ?_
      rw [hheld, hqueue, items_mergeBatch_none, List.append_assoc, List.map_cons,
        CommittedEntry.item_of_not_isNormal hnormal]
      rfl

/-- The task takes a request out of the channel. -/
theorem Sys.view_takeRequest (hworking : s.task.working = none) (h : s.takeRequest = some s') : s'.view = s.view := by
  rcases Sys.takeRequest_eq_some h with ⟨batch, rest, hchannel, rfl⟩ | ⟨rest, hchannel, rfl⟩
  · simp only [Sys.view, Sys.waiting, Sys.sent, Sys.held, hworking, hchannel, List.flatMap_cons, List.append_assoc]
    rfl
  · simp only [Sys.view, Sys.waiting, Sys.sent, Sys.held, hchannel, List.flatMap_cons]
    rfl

/-- The task works on the batch in hand. -/
theorem Sys.view_work {batch : ApplyBatch} (hworking : s.task.working = some batch) :
    (s.work batch).view = s.view ∨ s.view.Step (payload ∘ log) (s.work batch).view := by
  -- a snapshot that fails or is restored, an entry that fails or is applied, and the end of the batch
  fun_cases Sys.work s batch with
  | case1 | case3 => exact .inl rfl
  | case2 snapshot entries sm hrestore =>
      refine .inr (.feed s.view (x := restoreItem snapshot) ?_)
      simp only [Sys.view, Sys.waiting, Sys.sent, hworking]
      rfl
  | case4 index data rest applied sm happly =>
      refine .inr (.feed s.view (x := entryItem (index, data)) ?_)
      simp only [Sys.view, Sys.waiting, Sys.sent, hworking]
      rfl
  | case5 =>
      left
      simp only [Sys.publish, Sys.view, Sys.waiting, Sys.sent, Sys.held, hworking]
      rfl

/-- **Refinement.** Each step of actor or task is a step of the one queue, or does not show. -/
theorem Sys.view_step {start : Nat} (hsound : s.view.Sound (payload ∘ log) start) (h : s.Step env log a s') :
    s'.view = s.view ∨ s.view.Step (payload ∘ log) s'.view := by
  obtain ⟨hexec, hdelivery⟩ := h
  cases Sys.moves_of_exec hexec with
  | serve hphase => exact .inl rfl
  | absorb hphase =>
      left
      simp only [Sys.absorbProgress, Sys.view, Sys.waiting, Sys.sent, Sys.held, hphase]
  | @poll term hphase =>
      left
      rcases s.pollSnapshot_cases term with heq | heq | ⟨index, data, saved, -, -, heq⟩
      · rw [heq]
        rfl
      · simp only [heq, Sys.view, Sys.waiting, Sys.sent, Sys.held, hphase]
      · simp only [heq, Sys.view, Sys.waiting, Sys.sent, Sys.held, hphase]
  | @deliver snapshot entries hphase =>
      right
      cases snapshot with
      | none => exact Sys.view_deliver_none hphase (hdelivery _ _ rfl)
      | some snapshot => exact Sys.view_deliver_some hsound hphase (hdelivery _ _ rfl)
  | @install snapshot hphase =>
      left
      refine Sys.view_orStop (fun _ => nofun) rfl rfl ?_
      rw [items_mergeBatch_some, Sys.held, hphase]
      rfl
  | pump hphase => exact .inl (Sys.view_pumpCommitted hphase)
  | @change e saved hphase hrunning =>
      left
      simp only [Sys.changeMembership]
      split
      · rfl
      · simp only [Sys.view, Sys.waiting, Sys.sent, Sys.held, hphase]
  | finish hphase =>
      left
      rcases s.maybeSnapshot_cases env with heq | heq | heq
      · rw [heq]
        rfl
      · simp only [heq, Sys.view, Sys.waiting, Sys.sent, Sys.held, hphase]
      · simp [heq, Sys.view, Sys.waiting, Sys.sent, Sys.held, hphase, ApplyRequest.items]
  | halt => exact .inl rfl
  | take hfailed hworking htake => exact .inl (Sys.view_takeRequest hworking htake)
  | work hfailed hworking => exact Sys.view_work hworking
  | close hfailed => exact .inl rfl

/-! ## Snapshots on their way

What raft promises of a snapshot when it delivers it is needed when the snapshot is restored, so the promise has to
be carried through the pipeline. -/

/-- The batch is somewhere in the pipeline. -/
def Sys.Holds (s : Sys) (batch : ApplyBatch) : Prop :=
  s.task.working = some batch ∨ .batch batch ∈ s.channel ∨ s.actor.deferred = some batch

/-- All snapshots in the pipeline satisfy `P`. -/
structure Sys.AllSnapshots (P : Snapshot → Prop) (s : Sys) : Prop where
  holds : ∀ batch, s.Holds batch → ∀ snap ∈ batch.snapshot, P snap
  installing : ∀ snap, s.actor.phase = .installing snap → P snap

variable {P : Snapshot → Prop}

/-- Batches that were there before, in a phase that installs nothing. -/
theorem Sys.AllSnapshots.of_holds (h : s.AllSnapshots P) (hholds : ∀ batch, s'.Holds batch → s.Holds batch)
    (hphase : ∀ snap, s'.actor.phase = .installing snap → s.actor.phase = .installing snap) : s'.AllSnapshots P :=
  ⟨fun batch hb => h.holds batch (hholds batch hb), fun snap hsnap => h.installing snap (hphase snap hsnap)⟩

theorem Sys.AllSnapshots.orStop (h : s.AllSnapshots P) {popped : Sys} {snapshot : Option Snapshot}
    {entries : List (UInt64 × Bytes)} {phase : Phase} (hpopped : ∀ batch, popped.Holds batch → s.Holds batch)
    (hsnapshot : ∀ snap ∈ snapshot, P snap) (hphase : ∀ snap, phase ≠ .installing snap) :
    (s.orStop phase (popped.enqueueApply env snapshot entries)).AllSnapshots P := by
  rcases Sys.orStop_enqueueApply env s popped snapshot entries phase with
    heq | ⟨book, deferred, channel, handOver, heq, -, hnew⟩ <;> rw [heq]
  · exact ⟨h.holds, h.installing⟩
  · refine ⟨fun batch hb => ?_, fun snap hsnap => absurd hsnap (hphase snap)⟩
    have hmerged : ∀ snap ∈ (mergeBatch popped.actor.deferred snapshot entries).snapshot, P snap := by
      cases hdeferred : popped.actor.deferred with
      | none => exact hsnapshot
      | some waiting =>
          cases snapshot with
          | none => exact h.holds waiting (hpopped waiting (.inr (.inr hdeferred)))
          | some snap => exact hsnapshot
    rcases hb with hb | hb
    · exact h.holds batch (hpopped batch (.inl hb))
    · rcases hnew batch hb with hb | rfl
      · exact h.holds batch (hpopped batch (.inr (.inl hb)))
      · exact hmerged

theorem Sys.AllSnapshots.work (h : s.AllSnapshots P) {batch : ApplyBatch} (hworking : s.task.working = some batch) :
    (s.work batch).AllSnapshots P := by
  -- What is left of the batch has its snapshot, or none.
  have hrest (sm : Store) (bytes : Nat) (working : Option ApplyBatch) (failed : Option ApplyFailure)
      (progress : ApplyProgress) (history : History)
      (hb : ∀ b ∈ working, b.snapshot = none ∨ b = batch) :
      Sys.AllSnapshots P { s with
        task.sm := sm, task.appliedBytesTotal := bytes, task.working := working, task.failed := failed,
        progress := progress, history := history } := by
    refine ⟨fun b hholds => ?_, h.installing⟩
    rcases hholds with hb' | hb'
    · rcases hb b hb' with hnone | rfl
      · rw [hnone]
        exact nofun
      · exact h.holds b (.inl hworking)
    · exact h.holds b (.inr hb')
  fun_cases Sys.work s batch with
  | case1 | case3 =>
      refine hrest _ _ s.task.working _ _ _ fun b hb => .inr ?_
      exact Option.some.inj (hb.symm.trans hworking)
  | case2 | case4 => exact hrest _ _ (some _) _ _ _ fun b hb => .inl (Option.some.inj hb ▸ rfl)
  | case5 => exact hrest _ _ none _ _ _ nofun

theorem Sys.AllSnapshots.step (h : s.AllSnapshots P) (hmoves : s.Moves env a s')
    (hdelivery : ∀ snapshot entries, a = .deliver snapshot entries → ∀ snap ∈ snapshot, P snap) : s'.AllSnapshots P := by
  cases hmoves with
  | serve hphase => exact h.of_holds (fun _ => id) fun _ => id
  | absorb hphase => exact h.of_holds (fun _ => id) nofun
  | @poll term hphase =>
      rcases s.pollSnapshot_cases term with heq | heq | ⟨index, data, saved, -, -, heq⟩ <;> rw [heq]
      · exact h.of_holds (fun _ => id) fun _ => id
      · exact h.of_holds (fun _ => id) nofun
      · exact h.of_holds (fun _ => id) nofun
  | @deliver snapshot entries hphase =>
      refine ⟨h.holds, fun snap hsnap => hdelivery _ _ rfl snap ?_⟩
      cases snapshot with
      | none => cases hsnap
      | some snapshot =>
          cases hsnap
          rfl
  | @install snapshot hphase =>
      refine h.orStop (fun _ => id) (fun snap hsnap => ?_) fun _ => nofun
      obtain rfl := Option.some.inj hsnap
      exact h.installing _ hphase
  | pump hphase =>
      rw [Sys.pumpCommitted]
      split
      · exact h.of_holds (fun _ => id) nofun
      · split_ifs
        · exact h.orStop (fun _ => id) nofun fun _ => nofun
        · exact h.of_holds (fun _ => id) nofun
        · exact h.orStop (fun _ => id) nofun fun _ => nofun
  | @change e saved hphase hrunning =>
      simp only [Sys.changeMembership]
      split
      · exact h.of_holds (fun _ => id) fun _ => id
      · exact h.of_holds (fun _ => id) nofun
  | finish hphase =>
      rcases s.maybeSnapshot_cases env with heq | heq | heq <;> rw [heq]
      · exact h.of_holds (fun _ => id) fun _ => id
      · exact h.of_holds (fun _ => id) nofun
      · refine h.of_holds (fun batch hb => ?_) nofun
        simpa [Sys.Holds] using hb
  | halt => exact h.of_holds (fun _ => id) fun _ => id
  | take hfailed hworking htake =>
      rcases Sys.takeRequest_eq_some htake with ⟨batch, rest, hchannel, rfl⟩ | ⟨rest, hchannel, rfl⟩
      · refine h.of_holds (fun b hb => ?_) fun _ => id
        rcases hb with hb | hb | hb
        · exact .inr (.inl (hchannel ▸ Option.some.inj hb ▸ List.mem_cons_self))
        · exact .inr (.inl (hchannel ▸ List.mem_cons_of_mem _ hb))
        · exact .inr (.inr hb)
      · refine h.of_holds (fun b hb => ?_) fun _ => id
        exact hb.imp_right (Or.imp_left fun hb => hchannel ▸ List.mem_cons_of_mem _ hb)
  | work hfailed hworking => exact h.work hworking
  | close hfailed => exact h.of_holds (fun _ => id) fun _ => id

/-! ## The state machine -/

theorem Sys.orStop_frame {popped : Sys} (snapshot : Option Snapshot) (entries : List (UInt64 × Bytes)) (phase : Phase)
    (htask : popped.task = s.task) (hprogress : popped.progress = s.progress) (hfed : popped.history.fed = s.history.fed) :
    (s.orStop phase (popped.enqueueApply env snapshot entries)).task = s.task ∧
      (s.orStop phase (popped.enqueueApply env snapshot entries)).progress = s.progress ∧
      (s.orStop phase (popped.enqueueApply env snapshot entries)).history.fed = s.history.fed := by
  rcases Sys.orStop_enqueueApply env s popped snapshot entries phase with
    heq | ⟨book, deferred, channel, handOver, heq, -, -⟩ <;> rw [heq]
  · exact ⟨rfl, rfl, rfl⟩
  · exact ⟨htask, hprogress, hfed⟩

/-- The actor does not touch the task. -/
theorem Sys.pumpCommitted_frame (env : Env) (s : Sys) :
    (s.pumpCommitted env).task = s.task ∧ (s.pumpCommitted env).progress = s.progress ∧
      (s.pumpCommitted env).history.fed = s.history.fed := by
  rw [Sys.pumpCommitted]
  split
  · exact ⟨rfl, rfl, rfl⟩
  · split_ifs
    · exact Sys.orStop_frame _ _ _ rfl rfl rfl
    · exact ⟨rfl, rfl, rfl⟩
    · exact Sys.orStop_frame _ _ _ rfl rfl rfl

/-- Only the work of the task moves the state machine. -/
theorem Sys.Moves.frame (h : s.Moves env a s') (ha : a ≠ .work) :
    s'.task.sm = s.task.sm ∧ s'.task.failed = s.task.failed ∧ s'.progress = s.progress ∧
      s'.history.fed = s.history.fed := by
  have hactor {t : Sys} (ht : t.task = s.task ∧ t.progress = s.progress ∧ t.history.fed = s.history.fed) :
      t.task.sm = s.task.sm ∧ t.task.failed = s.task.failed ∧ t.progress = s.progress ∧
        t.history.fed = s.history.fed :=
    ⟨congrArg ApplyTask.sm ht.1, congrArg ApplyTask.failed ht.1, ht.2⟩
  cases h with
  | work hfailed hworking => exact absurd rfl ha
  | install hphase => exact hactor (Sys.orStop_frame _ _ _ rfl rfl rfl)
  | pump hphase => exact hactor (s.pumpCommitted_frame env)
  | @poll term hphase =>
      rcases s.pollSnapshot_cases term with heq | heq | ⟨index, data, saved, -, -, heq⟩
      all_goals
        rw [heq]
        exact ⟨rfl, rfl, rfl, rfl⟩
  | change hphase hrunning =>
      simp only [Sys.changeMembership]
      split <;> exact ⟨rfl, rfl, rfl, rfl⟩
  | finish hphase =>
      rcases s.maybeSnapshot_cases env with heq | heq | heq
      all_goals
        rw [heq]
        exact ⟨rfl, rfl, rfl, rfl⟩
  | take hfailed hworking htake =>
      rcases Sys.takeRequest_eq_some htake with ⟨batch, rest, -, rfl⟩ | ⟨rest, -, rfl⟩
      · exact ⟨rfl, rfl, rfl, rfl⟩
      · exact ⟨rfl, rfl, rfl, rfl⟩
  | _ => exact ⟨rfl, rfl, rfl, rfl⟩

/-- The state machine stands where what it was fed ends, and what waits goes on from there. -/
structure Sys.Ordered (log : Nat → EntryType × Bytes) (start : Nat) (s : Sys) : Prop where
  sound : s.view.Sound (payload ∘ log) start
  applied : Follows (payload ∘ log) start s.history.fed s.task.sm.applied.toNat
  serialized : s.AllSnapshots Serialized
  failed : ∀ e, s.task.failed = some (.apply e) → e = .malformedCommand

/-- What waits begins right above the state machine. -/
theorem Sys.Ordered.waiting {start : Nat} (h : s.Ordered log start) :
    Follows (payload ∘ log) s.task.sm.applied.toNat s.waiting s.history.delivered :=
  h.sound.follows.suffix h.applied

theorem ordered_start (log : Nat → EntryType × Bytes) (sm : Store) (membership : Membership) (clock : Option Nat) :
    (Sys.start sm membership clock).Ordered log sm.applied.toNat := by
  refine ⟨Pipe.sound_start _ _, rfl, ⟨fun batch hb => ?_, nofun⟩, nofun⟩
  rcases hb with hb | hb | hb <;> cases hb

/-- The next entry in the task's hands is the next one of the log. -/
theorem Sys.Ordered.next_entry {start : Nat} (h : s.Ordered log start) {index : UInt64} {data : Bytes}
    {rest : List (UInt64 × Bytes)} (hworking : s.task.working = some { snapshot := none, entries := (index, data) :: rest }) :
    index = s.task.sm.applied + 1 ∧ index.toNat = s.task.sm.applied.toNat + 1 ∧ data = payload (log index.toNat) := by
  have hwaiting := h.waiting
  rw [Sys.waiting, Sys.sent, hworking] at hwaiting
  obtain ⟨hindex, hdata, -⟩ := hwaiting
  refine ⟨?_, hindex, hdata⟩
  rw [← UInt64.toNat_inj, UInt64.toNat_add, ← Nat.mod_eq_of_lt index.toNat_lt, hindex]
  rfl

/-- The work of the task: the next entry is the one the state machine expects. -/
theorem Sys.Ordered.work {start : Nat} (h : s.Ordered log start) (hfailed : s.task.failed = none) {batch : ApplyBatch}
    (hworking : s.task.working = some batch) :
    Follows (payload ∘ log) start (s.work batch).history.fed (s.work batch).task.sm.applied.toNat ∧
      ∀ e, (s.work batch).task.failed = some (.apply e) → e = .malformedCommand := by
  rcases batch with ⟨_ | snapshot, entries⟩
  · rcases entries with _ | ⟨⟨index, data⟩, rest⟩
    · exact ⟨h.applied, h.failed⟩
    · obtain ⟨hnext, hindex, hdata⟩ := h.next_entry hworking
      simp only [Sys.work]
      split
      · next e sm happly =>
        rw [hnext] at happly
        obtain ⟨rfl, rfl⟩ := Store.of_apply_next_error happly
        refine ⟨h.applied, fun e he => ?_⟩
        cases he
        rfl
      · next applied sm happly =>
        rw [Store.applied_of_apply happly]
        refine ⟨h.applied.append ⟨hindex, hdata, rfl⟩, fun e he => ?_⟩
        rw [hfailed] at he
        cases he
  · have hwaiting := h.waiting
    rw [Sys.waiting, Sys.sent, hworking] at hwaiting
    simp only [Sys.work]
    rw [Store.restore_eq]
    cases hdecode : decodeStore snapshot.data with
    | error e => exact ⟨h.applied, nofun⟩
    | ok next =>
        obtain ⟨st, hindex, hdata⟩ := h.serialized.holds _ (.inl hworking) snapshot rfl
        rw [hdata] at hdecode
        refine ⟨h.applied.append ⟨hwaiting.1, ?_⟩, fun e he => ?_⟩
        · show _ = next.applied.toNat
          rw [StateMachine.applied_of_decodeStore hdecode, hindex]
        · cases hfailed.symm.trans he

theorem Sys.Ordered.step {start : Nat} (h : s.Ordered log start) (hstep : s.Step env log a s') : s'.Ordered log start := by
  have hsound : s'.view.Sound (payload ∘ log) start := by
    rcases Sys.view_step h.sound hstep with heq | hpipe
    · exact heq ▸ h.sound
    · exact hpipe.sound h.sound
  have hmoves := Sys.moves_of_exec hstep.1
  have hserialized : s'.AllSnapshots Serialized :=
    h.serialized.step hmoves fun _ _ ha => (hstep.2 _ _ ha).serialized
  by_cases ha : a = .work
  · subst ha
    cases hmoves with
    | work hfailed hworking =>
        obtain ⟨happlied, hfail⟩ := h.work hfailed hworking
        exact ⟨hsound, happlied, hserialized, hfail⟩
  · obtain ⟨hsm, hfailed, -, hfed⟩ := hmoves.frame ha
    refine ⟨hsound, ?_, hserialized, fun e he => h.failed e (hfailed ▸ he)⟩
    rw [hfed, hsm]
    exact h.applied

theorem ordered_of_run {sm : Store} {membership : Membership} {clock : Option Nat} {ops : List Action}
    (h : PipelineRun env log (Sys.start sm membership clock) ops s) : s.Ordered log sm.applied.toNat :=
  h.invariant (P := fun _ s => s.Ordered log sm.applied.toNat)
    (fun _ hs => hs ▸ ordered_start log sm membership clock) fun _ _ _ _ _ hs hstep => hs.step hstep

/-- **Apply order.** In every interleaving of actor and apply task, for every capacity of the channel, the state
machine accepts the committed log in index order, membership changes as no-ops, and no entry twice. No entry above
the latest snapshot is skipped: what it was fed and what still waits end in exactly these. Before an entry is fed,
each snapshot below it has been restored, unless a newer one superseded it while it waited, which then has. The state
machine never refuses an entry for its index. -/
theorem apply_order {sm : Store} {membership : Membership} {clock : Option Nat} {ops : List Action}
    (h : PipelineRun env log (Sys.start sm membership clock) ops s) :
    Follows (payload ∘ log) sm.applied.toNat s.history.fed s.task.sm.applied.toNat ∧
      (s.history.fed.filterMap Item.entryIndex).Pairwise (· < ·) ∧
      Feed.Complete (payload ∘ log) sm.applied.toNat s.history.installs.head? s.history.delivered
        (s.history.fed ++ s.waiting) ∧
      (∀ before i data after, s.history.fed = before ++ .entry i data :: after → ∀ snap ∈ s.history.installs, snap < i →
        ∃ snap', .restore snap' ∈ before ∧ snap ≤ snap' ∧ (snap' = snap ∨ snap ∈ s.history.superseded)) ∧
      ∀ index, s.task.failed ≠ some (.apply (.indexViolation index)) := by
  have hordered := ordered_of_run h
  refine ⟨hordered.applied, hordered.applied.pairwise, hordered.sound.complete, ?_, fun index hfailed => ?_⟩
  · intro before i data after hfed snap hsnap hlt
    exact hordered.sound.restored hfed hsnap hlt
  · exact nomatch hordered.failed _ hfailed

/-! ## A snapshot that is superseded -/

/-- An environment with room for one request. -/
def narrow : Env where
  capacity := 1
  snapshotThresholdBytes := 0
  sessionTtlMs := 0
  sessionGraceMs := 0
  parseConfChange _ := none
  parseConfChangeV2 _ := none
  raftApply _ _ := none

/-- A log of no-ops. -/
def blankLog : Nat → EntryType × Bytes := fun _ => (.entry, [])

def blankEntry (index : UInt64) : CommittedEntry := { index, kind := .entry, data := [] }

/-- The snapshot of a store without keys. -/
def blankSnapshot (index : UInt64) : Snapshot where
  metadata := { index, term := 1, confState := .default }
  data := { Store.new with applied := index }.snapshot

theorem serialized_blankSnapshot (index : UInt64) : Serialized (blankSnapshot index) :=
  ⟨{ Store.new with applied := index }, rfl, rfl⟩

/-- The actions with blank snapshots only, for runs that are evaluated. -/
def Sys.execBlank (env : Env) (log : Nat → EntryType × Bytes) (s : Sys) : Action → Option Sys
  | .deliver none entries =>
    if Consecutive log s.history.delivered entries then s.exec env (.deliver none entries) else none
  | .deliver (some snapshot) entries =>
    if s.history.delivered ≤ snapshot.metadata.index.toNat ∧ snapshot = blankSnapshot snapshot.metadata.index ∧
        Consecutive log snapshot.metadata.index.toNat entries then
      s.exec env (.deliver (some snapshot) entries)
    else none
  | a => s.exec env a

theorem Sys.step_of_execBlank (h : s.execBlank env log a = some s') : s.Step env log a s' := by
  by_cases ha : ∃ snapshot entries, a = .deliver snapshot entries
  · obtain ⟨snapshot, entries, rfl⟩ := ha
    cases snapshot with
    | none =>
        obtain ⟨hconsecutive, hexec⟩ := Option.ite_none_right_eq_some.mp h
        refine ⟨hexec, fun _ _ heq => ?_⟩
        cases heq
        exact ⟨nofun, nofun, hconsecutive⟩
    | some snapshot =>
        obtain ⟨⟨habove, hblank, hconsecutive⟩, hexec⟩ := Option.ite_none_right_eq_some.mp h
        refine ⟨hexec, fun _ _ heq => ?_⟩
        cases heq
        refine ⟨fun snap hsnap => ?_, fun snap hsnap => ?_, hconsecutive⟩
        · exact Option.some.inj hsnap ▸ habove
        · exact Option.some.inj hsnap ▸ hblank ▸ serialized_blankSnapshot _
  · have hexec : s.exec env a = some s' := by
      cases a with
      | deliver snapshot entries => exact absurd ⟨snapshot, entries, rfl⟩ ha
      | _ => exact h
    exact ⟨hexec, fun snapshot entries heq => absurd ⟨snapshot, entries, heq⟩ ha⟩

/-- A membership without members. -/
def noMembers : Membership := { confState := .default, confChangeIndex := 0 }

/-- The first entry fills the channel. A snapshot at 2 has to wait, and one at 3 takes its place, with an entry
behind it. Then the task works everything off. -/
def supersedingActions : List Action :=
  [ .absorb, .poll none, .deliver none [blankEntry 1], .pump, .pump, .finish,
    .absorb, .poll none, .deliver (some (blankSnapshot 2)) [], .install, .pump, .finish,
    .absorb, .poll none, .deliver (some (blankSnapshot 3)) [blankEntry 4], .install, .pump, .pump, .finish,
    .take, .work, .work,
    .absorb, .poll none, .deliver none [blankEntry 5], .pump, .pump, .finish,
    .take, .work, .work, .work, .work ]

theorem run_superseding : ∃ s, PipelineRun narrow blankLog (Sys.start .new noMembers none) supersedingActions s ∧
    s.history.installs = [3, 2] ∧ s.history.fed = [.entry 1 [], .restore 3, .entry 4 [], .entry 5 []] ∧
    s.waiting = [] := by
  have heval : (supersedingActions.foldlM (Sys.execBlank narrow blankLog) (Sys.start .new noMembers none)).any (fun s =>
      s.history.installs = [3, 2] ∧ s.history.fed = [.entry 1 [], .restore 3, .entry 4 [], .entry 5 []] ∧
        s.waiting = []) := by
    decide +kernel
  obtain ⟨s, hs, hfacts⟩ := (Option.any_eq_true _ _).mp heval
  exact ⟨s, .of_foldlM (fun _ _ _ => Sys.step_of_execBlank) rfl hs, of_decide_eq_true hfacts⟩

/-- Everything that was delivered is worked off. The snapshot at 2 was never restored, and entries above it have
been fed. -/
theorem superseded_snapshot_not_restored :
    ∃ s, PipelineRun narrow blankLog (Sys.start .new noMembers none) supersedingActions s ∧ s.waiting = [] ∧
      2 ∈ s.history.installs ∧ .restore 2 ∉ s.history.fed ∧ .entry 4 [] ∈ s.history.fed := by
  obtain ⟨s, hrun, hinstalls, hfed, hwaiting⟩ := run_superseding
  refine ⟨s, hrun, hwaiting, ?_, ?_, ?_⟩
  · rw [hinstalls]
    decide
  · rw [hfed]
    decide
  · rw [hfed]
    decide

theorem apply_order_superseding :
    ∃ s, PipelineRun narrow blankLog (Sys.start .new noMembers none) supersedingActions s ∧
      s.history.fed = [.entry 1 [], .restore 3, .entry 4 [], .entry 5 []] ∧
      Follows (payload ∘ blankLog) 0 s.history.fed s.task.sm.applied.toNat ∧
      ∃ snap', .restore snap' ∈ ([.entry 1 [], .restore 3] : List (Item Bytes)) ∧ 2 ≤ snap' ∧ (snap' = 2 ∨ 2 ∈ s.history.superseded) := by
  obtain ⟨s, hrun, hinstalls, hfed, -⟩ := run_superseding
  obtain ⟨hfollows, -, -, hrestored, -⟩ := apply_order hrun
  refine ⟨s, hrun, hfed, hfollows, hrestored _ 4 [] [.entry 5 []] hfed 2 ?_ (by decide)⟩
  rw [hinstalls]
  decide

end Arachne.Runtime.Pipeline
