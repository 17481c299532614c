import Arachne.Runtime.ApplyOrder

/-! # The barrier before a membership change

A membership change is applied on the actor, to raft, and not by the state machine. It must wait until
everything before it is applied, and the actor judges that by its own `applied_index`. This index is not the
one of the state machine: it is set to the published progress at the start of a cycle, which may lag behind,
and moves ahead of the state machine over each membership change of the cycle. The invariant is that it only
ever runs ahead over membership changes (`ahead`). -/

namespace Arachne.Runtime.Pipeline

open Codec (Bytes)
open Feed (Item Follows)
open StateMachine (Store)
open Storage (EntryType Snapshot)

variable {env : Env} {log : Nat → EntryType × Bytes} {s s' : Sys} {a : Action} {start : Nat}

/-- The entry at `i` changes the membership. -/
def Changes (log : Nat → EntryType × Bytes) (i : Nat) : Prop := (log i).1 ≠ .entry

/-- Everything that has left the actor or is about to. -/
def Sys.handed (s : Sys) : List (Item Bytes) := s.history.fed ++ (s.sent ++ batchItems s.actor.deferred)

/-- What holds when the actor is about to change the membership for `e`. -/
structure Sys.AtBarrier (log : Nat → EntryType × Bytes) (s : Sys) (e : CommittedEntry) : Prop where
  change : Changes log e.index.toNat
  below : ∀ i, s.task.sm.applied.toNat < i → i < e.index.toNat → Changes log i
  handed : ∀ x ∈ s.handed, x.index ≤ e.index.toNat
  uncalled : ∀ c ∈ s.history.calls, c < e.index.toNat
  delivered : e.index.toNat ≤ s.history.delivered
  rest : ∀ e' ∈ s.actor.committedQueue, e.index.toNat < e'.index.toNat

structure Sys.Barred (log : Nat → EntryType × Bytes) (s : Sys) : Prop where
  progress : s.progress.appliedIndex.toNat ≤ s.task.sm.applied.toNat
  ahead : ∀ i, s.task.sm.applied.toNat < i → i ≤ s.actor.appliedIndex → Changes log i
  queue : ∀ e ∈ s.actor.committedQueue, (e.kind, e.data) = log e.index.toNat
  sorted : s.history.calls.Pairwise (· > ·)
  changes : ∀ c ∈ s.history.calls, Changes log c
  called : ∀ c ∈ s.history.calls, c ≤ s.history.delivered ∧ ∀ e ∈ s.actor.committedQueue, c < e.index.toNat
  changing : ∀ e, s.actor.stopped = false → s.actor.phase = .changing e → s.AtBarrier log e

/-! ## The task

The task moves work from the channel to the state machine. It changes nothing the actor decides by. -/

/-- What has left the actor stays, whether it is applied or not. -/
theorem Sys.fed_append_sent_work {batch : ApplyBatch} (hworking : s.task.working = some batch) :
    (s.work batch).history.fed ++ (s.work batch).sent = s.history.fed ++ s.sent := by
  -- a snapshot that fails or is restored, an entry that fails or is applied, and the end of the batch
  fun_cases Sys.work s batch with
  | case1 | case3 => rfl
  | case2 | case4 =>
      simp only [Sys.sent, hworking, List.append_assoc]
      rfl
  | case5 =>
      simp only [Sys.publish, Sys.sent, hworking]
      rfl

theorem Sys.work_frame (s : Sys) (batch : ApplyBatch) :
    (s.work batch).actor = s.actor ∧ (s.work batch).history = { s.history with fed := (s.work batch).history.fed } ∧
      (∃ more, (s.work batch).history.fed = s.history.fed ++ more) ∧
      ((s.work batch).progress = s.progress ∨ (s.work batch).progress.appliedIndex = (s.work batch).task.sm.applied) := by
  fun_cases Sys.work s batch with
  | case1 | case3 | case5 => exact ⟨rfl, rfl, ⟨[], (List.append_nil _).symm⟩, .inr rfl⟩
  | case2 | case4 => exact ⟨rfl, rfl, ⟨_, rfl⟩, .inl rfl⟩

/-- The state machine never goes back. -/
theorem Sys.Ordered.applied_le (h : s.Ordered log start) (hstep : s.Step env log a s') :
    s.task.sm.applied.toNat ≤ s'.task.sm.applied.toNat := by
  have hmoves := Sys.moves_of_exec hstep.1
  by_cases ha : a = .work
  · subst ha
    have happlied := (h.step hstep).applied
    cases hmoves with
    | @work batch hfailed hworking =>
        obtain ⟨more, hmore⟩ := (s.work_frame batch).2.2.1
        rw [hmore] at happlied
        exact (happlied.suffix h.applied).le
  · rw [(hmoves.frame ha).1]

/-- The published index never runs ahead of the state machine. -/
theorem Sys.Ordered.progress_le (h : s.Ordered log start) (hstep : s.Step env log a s')
    (hprogress : s.progress.appliedIndex.toNat ≤ s.task.sm.applied.toNat) :
    s'.progress.appliedIndex.toNat ≤ s'.task.sm.applied.toNat := by
  have hmoves := Sys.moves_of_exec hstep.1
  have happlied := h.applied_le hstep
  by_cases ha : a = .work
  · subst ha
    cases hmoves with
    | @work batch hfailed hworking =>
        rcases (s.work_frame batch).2.2.2 with hsame | hpublished
        · rw [hsame]
          exact hprogress.trans happlied
        · rw [hpublished]
  · rw [(hmoves.frame ha).2.2.1]
    exact hprogress.trans happlied

/-- A step of the task: the state machine may have moved on, and everything else is as it was. -/
theorem Sys.Barred.of_task (h : s.Barred log) (hactor : ∃ wait, s'.actor = { s.actor with snapshotWait := wait })
    (hhistory : s'.history = { s.history with fed := s'.history.fed })
    (hsent : s'.history.fed ++ s'.sent = s.history.fed ++ s.sent)
    (happlied : s.task.sm.applied.toNat ≤ s'.task.sm.applied.toNat)
    (hprogress : s'.progress.appliedIndex.toNat ≤ s'.task.sm.applied.toNat) : s'.Barred log := by
  obtain ⟨wait, hactor⟩ := hactor
  have hhanded : s'.handed = s.handed := by
    unfold Sys.handed
    rw [hactor, ← List.append_assoc, hsent, List.append_assoc]
  refine ⟨hprogress, ?_, ?_, ?_, ?_, ?_, ?_⟩
  · intro i hi hle
    rw [hactor] at hle
    exact h.ahead i (lt_of_le_of_lt happlied hi) hle
  · rw [hactor]
    exact h.queue
  · rw [hhistory]
    exact h.sorted
  · rw [hhistory]
    exact h.changes
  · rw [hhistory, hactor]
    exact h.called
  · intro e hrunning hphase
    rw [hactor] at hrunning hphase
    have hbarrier := h.changing e hrunning hphase
    refine ⟨hbarrier.change, ?_, ?_, ?_, ?_, ?_⟩
    · intro i hi hlt
      exact hbarrier.below i (lt_of_le_of_lt happlied hi) hlt
    · rw [hhanded]
      exact hbarrier.handed
    · rw [hhistory]
      exact hbarrier.uncalled
    · rw [hhistory]
      exact hbarrier.delivered
    · rw [hactor]
      exact hbarrier.rest

/-! ## The actor -/

/-- A step of the actor that neither delivers nor changes anything: the queue may lose entries. -/
theorem Sys.Barred.of_actor (h : s.Barred log) (hsm : s'.task.sm = s.task.sm) (hprogress : s'.progress = s.progress)
    (happlied : s'.actor.appliedIndex = s.actor.appliedIndex)
    (hqueue : ∀ e ∈ s'.actor.committedQueue, e ∈ s.actor.committedQueue)
    (hcalls : s'.history.calls = s.history.calls) (hdelivered : s'.history.delivered = s.history.delivered)
    (hchanging : ∀ e, s'.actor.stopped = false → s'.actor.phase = .changing e → s'.AtBarrier log e) : s'.Barred log := by
  refine ⟨?_, ?_, fun e he => h.queue e (hqueue e he), ?_, ?_, ?_, hchanging⟩
  · rw [hsm, hprogress]
    exact h.progress
  · rw [hsm, happlied]
    exact h.ahead
  · rw [hcalls]
    exact h.sorted
  · rw [hcalls]
    exact h.changes
  · rw [hcalls, hdelivered]
    intro c hc
    exact ⟨(h.called c hc).1, fun e he => (h.called c hc).2 e (hqueue e he)⟩

theorem Consecutive.mem {w : Nat} {entries : List CommittedEntry} (h : Consecutive log w entries) {e : CommittedEntry}
    (he : e ∈ entries) : w < e.index.toNat ∧ (e.kind, e.data) = log e.index.toNat := by
  induction entries generalizing w with
  | nil => cases he
  | cons e' entries ih =>
      obtain ⟨hindex, hdata, hrest⟩ := h
      rcases List.mem_cons.mp he with rfl | he
      · rw [hindex]
        exact ⟨Nat.lt_succ_self w, hdata⟩
      · obtain ⟨hlt, hdata⟩ := ih hrest he
        exact ⟨Nat.lt_of_succ_lt hlt, hdata⟩

theorem mem_of_mem_retainAbove {snapshot : Option Snapshot} {queue : List CommittedEntry} {e : CommittedEntry}
    (h : e ∈ retainAbove snapshot queue) : e ∈ queue := by
  cases snapshot with
  | none => exact h
  | some snapshot => exact (List.mem_filter.mp h).1

/-- An index that was delivered and is not in the queue any more stays below the queue. -/
theorem Delivery.below {delivered c : Nat} {snapshot : Option Snapshot} {entries queue : List CommittedEntry}
    (hd : Delivery log delivered snapshot entries) (hle : c ≤ delivered) (hlt : ∀ e ∈ queue, c < e.index.toNat) :
    c ≤ lastDelivered delivered snapshot entries ∧ ∀ e ∈ retainAbove snapshot queue ++ entries, c < e.index.toNat := by
  -- The delivery begins at or above what was delivered before.
  have hbase : delivered ≤ snapshot.elim delivered fun snap => snap.metadata.index.toNat := by
    cases snapshot with
    | none => exact Nat.le_refl _
    | some snap => exact hd.above snap rfl
  refine ⟨?_, ?_⟩
  · rw [hd.consecutive.lastDelivered_eq]
    omega
  · intro e he
    rcases List.mem_append.mp he with he | he
    · exact hlt e (mem_of_mem_retainAbove he)
    · exact lt_of_le_of_lt (hle.trans hbase) (hd.consecutive.mem he).1

theorem Sys.Barred.deliver (h : s.Barred log) {snapshot : Option Snapshot} {entries : List CommittedEntry}
    (hd : Delivery log s.history.delivered snapshot entries) : (s.stageCommitted env snapshot entries).Barred log := by
  refine ⟨h.progress, h.ahead, ?_, h.sorted, h.changes, ?_, ?_⟩
  · intro e he
    rcases List.mem_append.mp he with he | he
    · exact h.queue e (mem_of_mem_retainAbove he)
    · exact (hd.consecutive.mem he).2
  · intro c hc
    obtain ⟨hle, hlt⟩ := h.called c hc
    exact hd.below hle hlt
  · intro e hrunning hphase
    cases snapshot with
    | none => cases hphase
    | some snap => cases hphase

/-- **The barrier holds.** The no-op of the change is the last thing handed over, and everything before it is applied
or changes the membership itself. -/
theorem Sys.Barred.atBarrier (h : s.Barred log) (hordered : s.Ordered log start) (hphase : s.actor.phase = .pumping)
    {e : CommittedEntry} {rest : List CommittedEntry} (hqueue : s.actor.committedQueue = e :: rest)
    (hnormal : ¬ e.isNormal) (hbarrier : ¬ s.actor.appliedIndex + 1 < e.index.toNat) (hsm : s'.task.sm = s.task.sm)
    (hcalls : s'.history.calls = s.history.calls) (hdelivered : s'.history.delivered = s.history.delivered)
    (hrest : s'.actor.committedQueue = rest) (hhanded : s'.handed = s.handed ++ [e.item]) : s'.AtBarrier log e := by
  have hmem : e ∈ s.actor.committedQueue := hqueue ▸ List.mem_cons_self
  -- Cut the feed right before the change.
  have hfollows : Follows (payload ∘ log) start (s.handed ++ e.item :: rest.map CommittedEntry.item) s.history.delivered := by
    have hheld : s.held = batchItems s.actor.deferred := Sys.held_eq fun snap hsnap => by rw [hphase] at hsnap; cases hsnap
    have hall := hordered.sound.follows
    simp only [Sys.view, Sys.waiting, hheld, hqueue, List.map_cons] at hall
    simpa only [Sys.handed, List.append_assoc] using hall
  obtain ⟨v, hbefore, hindex, -, hafter⟩ := hfollows.split
  refine ⟨?_, ?_, ?_, ?_, ?_, ?_⟩
  · intro hentry
    rw [← h.queue e hmem] at hentry
    exact hnormal (decide_eq_true hentry)
  · intro i hi hlt
    rw [hsm] at hi
    apply h.ahead i hi
    omega
  · rw [hhanded]
    intro x hx
    rcases List.mem_append.mp hx with hx | hx
    · have hle := (hbefore.index_le hx).2
      omega
    · rw [List.mem_singleton.mp hx]
      exact Nat.le_refl _
  · rw [hcalls]
    exact fun c hc => (h.called c hc).2 e hmem
  · rw [hdelivered]
    exact hafter.le
  · rw [hrest]
    exact fun e' he' => hafter.lt_entry (List.mem_map_of_mem he')

theorem Sys.Barred.pump (h : s.Barred log) (hordered : s.Ordered log start) (hphase : s.actor.phase = .pumping) :
    (s.pumpCommitted env).Barred log := by
  have hstop : s.stop.Barred log := h.of_actor rfl rfl rfl (fun _ => id) rfl rfl nofun
  unfold Sys.pumpCommitted
  split
  · exact h.of_actor rfl rfl rfl (fun _ => id) rfl rfl nofun
  · next e rest hqueue =>
    split_ifs with hnormal hbarrier
    · -- A run of normal entries.
      rcases Sys.orStop_enqueueApply env s _ none _ .pumping with heq | ⟨book, deferred, channel, handOver, heq, -, -⟩
      · rw [heq]
        exact hstop
      · rw [heq]
        refine h.of_actor rfl rfl rfl (fun e he => ?_) rfl rfl nofun
        rw [hqueue]
        exact (List.dropWhile_suffix _).mem he
    · exact h.of_actor rfl rfl rfl (fun _ => id) rfl rfl nofun
    · rcases Sys.orStop_enqueueApply env s _ none _ (.changing e) with
        heq | ⟨book, deferred, channel, handOver, heq, hitems, -⟩
      · rw [heq]
        exact hstop
      · rw [heq]
        refine h.of_actor rfl rfl rfl (fun e he => ?_) rfl rfl ?_
        · rw [hqueue]
          exact List.mem_cons_of_mem _ he
        · intro e' _ hchanging
          obtain rfl := Phase.changing.inj hchanging
          refine h.atBarrier hordered hphase hqueue hnormal hbarrier rfl rfl rfl rfl ?_
          rw [items_mergeBatch_none] at hitems
          simp only [Sys.handed, Sys.sent, List.append_assoc, hitems, CommittedEntry.item_of_not_isNormal hnormal]
          rfl

theorem Sys.Barred.change (h : s.Barred log) {e : CommittedEntry} (hphase : s.actor.phase = .changing e)
    (hrunning : s.actor.stopped = false) (saved : Bool) : (s.changeMembership env e saved).Barred log := by
  have hbarrier := h.changing e hrunning hphase
  have hsorted : (e.index.toNat :: s.history.calls).Pairwise (· > ·) :=
    List.pairwise_cons.mpr ⟨hbarrier.uncalled, h.sorted⟩
  have hchanges : ∀ c ∈ e.index.toNat :: s.history.calls, Changes log c := by
    intro c hc
    rcases List.mem_cons.mp hc with rfl | hc
    · exact hbarrier.change
    · exact h.changes c hc
  have hcalled : ∀ c ∈ e.index.toNat :: s.history.calls,
      c ≤ s.history.delivered ∧ ∀ e ∈ s.actor.committedQueue, c < e.index.toNat := by
    intro c hc
    rcases List.mem_cons.mp hc with rfl | hc
    · exact ⟨hbarrier.delivered, hbarrier.rest⟩
    · exact h.called c hc
  simp only [Sys.changeMembership]
  split
  · exact ⟨h.progress, h.ahead, h.queue, hsorted, hchanges, hcalled, fun _ hstopped => by cases hstopped⟩
  · refine ⟨h.progress, ?_, h.queue, hsorted, hchanges, hcalled, fun _ _ hphase => by cases hphase⟩
    -- The actor runs ahead over this change, and over what was below it.
    intro i hi hle
    rcases Nat.lt_trichotomy i e.index.toNat with hlt | rfl | hgt
    · exact hbarrier.below i hi hlt
    · exact hbarrier.change
    · apply h.ahead i hi
      have hle : i ≤ max s.actor.appliedIndex e.index.toNat := hle
      omega

/-! ## Runs -/

theorem barred_start (log : Nat → EntryType × Bytes) (sm : Store) (membership : Membership) (clock : Option Nat) :
    (Sys.start sm membership clock).Barred log := by
  refine ⟨Nat.le_refl _, ?_, nofun, .nil, nofun, nofun, nofun⟩
  intro i hi hle
  exact absurd hle (Nat.not_le.mpr hi)

theorem Sys.Barred.step (h : s.Barred log) (hordered : s.Ordered log start) (hstep : s.Step env log a s') :
    s'.Barred log := by
  have happlied := hordered.applied_le hstep
  have hprogress := hordered.progress_le hstep h.progress
  cases Sys.moves_of_exec hstep.1 with
  | serve hphase =>
      refine h.of_actor rfl rfl rfl (fun _ => id) rfl rfl fun e _ hchanging => ?_
      cases hphase.symm.trans hchanging
  | absorb hphase =>
      -- The actor falls back to the published index, which the state machine has reached.
      refine ⟨h.progress, ?_, h.queue, h.sorted, h.changes, h.called, nofun⟩
      intro i hi hle
      exact absurd (hle.trans h.progress) (Nat.not_le.mpr hi)
  | @poll term hphase =>
      rcases s.pollSnapshot_cases term with heq | heq | ⟨index, data, saved, -, -, heq⟩
      all_goals
        rw [heq]
        exact h.of_actor rfl rfl rfl (fun _ => id) rfl rfl nofun
  | deliver hphase => exact h.deliver (hstep.2 _ _ rfl)
  | @install snapshot hphase =>
      rcases Sys.orStop_enqueueApply env s s (some snapshot) [] .pumping with
        heq | ⟨book, deferred, channel, handOver, heq, -, -⟩
      · rw [heq]
        exact h.of_actor rfl rfl rfl (fun _ => id) rfl rfl nofun
      · rw [heq]
        exact h.of_actor rfl rfl rfl (fun _ => id) rfl rfl nofun
  | pump hphase => exact h.pump hordered hphase
  | change hphase hrunning => exact h.change hphase hrunning _
  | finish hphase =>
      rcases s.maybeSnapshot_cases env with heq | heq | heq
      all_goals
        rw [heq]
        exact h.of_actor rfl rfl rfl (fun _ => id) rfl rfl nofun
  | halt => exact h.of_actor rfl rfl rfl (fun _ => id) rfl rfl nofun
  | take hfailed hworking htake =>
      rcases Sys.takeRequest_eq_some htake with ⟨batch, rest, hchannel, rfl⟩ | ⟨rest, hchannel, rfl⟩
      · refine h.of_task ⟨_, rfl⟩ rfl ?_ happlied hprogress
        simp only [Sys.sent, hworking, hchannel]
        rfl
      · refine h.of_task ⟨_, rfl⟩ rfl ?_ happlied hprogress
        simp only [Sys.sent, hchannel]
        rfl
  | @work batch hfailed hworking =>
      obtain ⟨hactor, hhistory, -, -⟩ := s.work_frame batch
      exact h.of_task ⟨_, hactor⟩ hhistory (Sys.fed_append_sent_work hworking) happlied hprogress
  | close hfailed => exact h.of_task ⟨_, rfl⟩ rfl rfl happlied hprogress

theorem barred_of_run {sm : Store} {membership : Membership} {clock : Option Nat} {ops : List Action}
    (h : PipelineRun env log (Sys.start sm membership clock) ops s) : s.Barred log :=
  h.invariant (P := fun _ s => s.Barred log) (fun _ hs => hs ▸ barred_start log sm membership clock)
    fun _ _ _ _ hrun hs hstep => hs.step (ordered_of_run hrun) hstep

/-- **The barrier.** Whenever `apply_conf_change` is called for the entry at `i`, the state machine has applied every
normal entry below `i`, nothing above `i` has been handed to the apply path, and the entry does change the membership.
The calls are made in log order, at most one for each entry. -/
theorem conf_change_barrier {sm : Store} {membership : Membership} {clock : Option Nat} {ops : List Action}
    (h : PipelineRun env log (Sys.start sm membership clock) ops s) :
    (∀ saved s', s.Step env log (.change saved) s' → ∃ e, s.actor.phase = .changing e ∧
      s'.history.calls = e.index.toNat :: s.history.calls ∧
      (∀ j < e.index.toNat, (log j).1 = .entry → j ≤ s.task.sm.applied.toNat) ∧
      (∀ j data, .entry j data ∈ s.handed → j ≤ e.index.toNat)) ∧
      (∀ c ∈ s.history.calls, (log c).1 ≠ .entry) ∧ s.history.calls.Pairwise (· > ·) := by
  have hbarred := barred_of_run h
  refine ⟨?_, hbarred.changes, hbarred.sorted⟩
  intro saved s' hstep
  cases Sys.moves_of_exec hstep.1 with
  | @change e _ hphase hrunning =>
      have hbarrier := hbarred.changing e hrunning hphase
      refine ⟨e, hphase, ?_, ?_, ?_⟩
      · simp only [Sys.changeMembership]
        split <;> rfl
      · intro j hj hentry
        by_contra hlt
        exact hbarrier.below j (Nat.not_le.mp hlt) hj hentry
      · intro j data hmem
        exact hbarrier.handed _ hmem

/-- Every change adds the node 7. -/
def addSeven : Env where
  capacity := 4
  snapshotThresholdBytes := 0
  sessionTtlMs := 0
  sessionGraceMs := 0
  parseConfChange _ := some (.addNode, 7)
  parseConfChangeV2 _ := some [(.addNode, 7)]
  raftApply conf change := some { conf with voters := change.2 :: conf.voters }

/-- A no-op, then only membership changes. -/
def changingLog : Nat → EntryType × Bytes := fun i => if i ≤ 1 then (.entry, []) else (.confChange, [])

/-- The first change has to wait for the entry before it. Then two changes in a row are applied, the second while the
state machine has not seen the no-op of the first. -/
def changingActions : List Action :=
  [ .absorb, .poll none, .deliver none [blankEntry 1, ⟨2, .confChange, []⟩, ⟨3, .confChange, []⟩], .pump, .pump, .finish,
    .take, .work, .work,
    .absorb, .poll none, .deliver none [], .pump, .change true, .pump ]

theorem conf_change_barrier_changing :
    ∃ s, PipelineRun addSeven changingLog (Sys.start .new noMembers none) changingActions s ∧
      s.history.calls = [2] ∧ s.task.sm.applied = 1 ∧ ∃ e, s.actor.phase = .changing e ∧ e.index = 3 ∧
      ∀ j < e.index.toNat, (changingLog j).1 = .entry → j ≤ s.task.sm.applied.toNat := by
  have heval : (changingActions.foldlM (Sys.execBlank addSeven changingLog) (Sys.start .new noMembers none)).any (fun s =>
      s.history.calls = [2] ∧ s.task.sm.applied = 1 ∧ s.actor.phase = .changing ⟨3, .confChange, []⟩ ∧
        s.actor.stopped = false) := by
    decide +kernel
  obtain ⟨s, hs, hfacts⟩ := (Option.any_eq_true _ _).mp heval
  obtain ⟨hcalls, happlied, hphase, hrunning⟩ := of_decide_eq_true hfacts
  have hrun : PipelineRun addSeven changingLog (Sys.start .new noMembers none) changingActions s :=
    .of_foldlM (fun _ _ _ => Sys.step_of_execBlank) rfl hs
  have hstep : s.Step addSeven changingLog (.change true) (s.changeMembership addSeven ⟨3, .confChange, []⟩ true) := by
    refine ⟨?_, nofun⟩
    simp only [Sys.exec, hrunning, hphase]
  obtain ⟨e, he, -, hbelow, -⟩ := (conf_change_barrier hrun).1 true _ hstep
  refine ⟨s, hrun, hcalls, happlied, e, he, ?_, hbelow⟩
  cases hphase.symm.trans he
  rfl

end Arachne.Runtime.Pipeline
