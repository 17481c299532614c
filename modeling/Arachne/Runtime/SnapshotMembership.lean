import Mathlib.Data.List.TakeWhile
import Arachne.Runtime.Barrier

/-! # The membership in a local snapshot

The apply task serializes its state at some index; the actor adds the membership when it picks the answer up
(`poll_snapshot`), in a later cycle. Between the two it may have applied membership changes above that index, and these
are then in the snapshot as well. `Sys.Timely` excludes it.

Everything else is in place: the no-op of a change is enqueued before the change is applied, and both before the next
`poll_snapshot`, so that no change at or below the index of the answer is missing (`Sys.Accounted.pending`). -/

namespace Arachne.Runtime.Pipeline

open Codec (Bytes)
open StateMachine (Store)
open Storage (EntryType ConfState Snapshot)

variable {env : Env} {log : Nat → EntryType × Bytes} {initial : ConfState} {s s' : Sys} {a : Action} {start : Nat}

/-- What the committed entry does to a configuration. -/
def Env.applyEntry (env : Env) (conf : ConfState) : EntryType × Bytes → Option ConfState
  | (.entry, _) => some conf
  | (kind, data) => (env.confChangeIdentity kind data).bind (env.raftApply conf)

/-- The configuration that the membership changes with index at most `n` make of `initial`; `none` if one of them is
refused. -/
def Env.confAt (env : Env) (log : Nat → EntryType × Bytes) (initial : ConfState) : Nat → Option ConfState
  | 0 => some initial
  | n + 1 => (env.confAt log initial n).bind fun conf => env.applyEntry conf (log (n + 1))

/-- The snapshot carries the configuration at its own index. -/
def Env.Carries (env : Env) (log : Nat → EntryType × Bytes) (initial : ConfState) (snapshot : Snapshot) : Prop :=
  env.confAt log initial snapshot.metadata.index.toNat = some snapshot.metadata.confState

instance (snapshot : Snapshot) : Decidable (env.Carries log initial snapshot) := inferInstanceAs (Decidable (_ = _))

/-- No membership change above the index of a finished snapshot is applied when it is picked up. An installed snapshot
carries its own membership. -/
def Sys.Timely (env : Env) (log : Nat → EntryType × Bytes) (initial : ConfState) (s : Sys) : Action → Prop
  | .poll _ => ∀ answer ∈ s.actor.snapshotWait.join, s.actor.membership.confChangeIndex ≤ answer.1.toNat
  | .deliver snapshot _ => ∀ snap ∈ snapshot, env.Carries log initial snap
  | _ => True

instance : Decidable (s.Timely env log initial a) :=
  match a with
  | .poll _ => inferInstanceAs
      (Decidable (∀ answer ∈ s.actor.snapshotWait.join, s.actor.membership.confChangeIndex ≤ answer.1.toNat))
  | .deliver snapshot _ => inferInstanceAs (Decidable (∀ snap ∈ snapshot, env.Carries log initial snap))
  | .serve _ _ _ | .absorb | .install | .pump | .change _ | .finish | .halt | .take | .work | .close => .isTrue trivial

/-- A run of the pipeline in which every step is timely. -/
abbrev TimelyRun (env : Env) (log : Nat → EntryType × Bytes) (initial : ConfState) (first : Sys) :
    List Action → Sys → Prop :=
  Transition.Run (· = first) fun s a s' => s.Step env log a s' ∧ s.Timely env log initial a

/-- The stored membership is the one at its index, changes above it are still to come, and the snapshots created so far
carry their own. -/
structure Sys.Accounted (env : Env) (log : Nat → EntryType × Bytes) (initial : ConfState) (s : Sys) : Prop where
  conf_eq : env.confAt log initial s.actor.membership.confChangeIndex = some s.actor.membership.confState
  pending : ∀ i, s.actor.membership.confChangeIndex < i → i ≤ s.history.delivered → Changes log i →
    (∃ e ∈ s.actor.committedQueue, e.index.toNat = i) ∨ ∃ e, s.actor.phase = .changing e ∧ e.index.toNat = i
  changing : ∀ e, s.actor.phase = .changing e → (e.kind, e.data) = log e.index.toNat
  answered : ∀ answer ∈ s.actor.snapshotWait.join, answer.1.toNat ≤ s.task.sm.applied.toNat
  created : ∀ snapshot ∈ s.history.created, env.Carries log initial snapshot

/-! ## Configurations -/

theorem Env.applyEntry_normal (conf : ConfState) {entry : EntryType × Bytes} (h : entry.1 = .entry) :
    env.applyEntry conf entry = some conf := by
  obtain ⟨kind, data⟩ := entry
  obtain rfl : kind = .entry := h
  rfl

theorem Env.applyEntry_change (conf : ConfState) {entry : EntryType × Bytes} (h : entry.1 ≠ .entry) :
    env.applyEntry conf entry = (env.confChangeIdentity entry.1 entry.2).bind (env.raftApply conf) := by
  obtain ⟨kind, data⟩ := entry
  cases kind with
  | entry => exact absurd rfl h
  | confChange => rfl
  | confChangeV2 => rfl

/-- Entries that change nothing change nothing. -/
theorem Env.confAt_eq {m n : Nat} (hle : m ≤ n) (h : ∀ i, m < i → i ≤ n → ¬ Changes log i) :
    env.confAt log initial n = env.confAt log initial m := by
  induction n, hle using Nat.le_induction with
  | base => rfl
  | succ n hle ih =>
      have hnormal : (log (n + 1)).1 = .entry := not_not.mp (h (n + 1) (Nat.lt_succ_of_le hle) le_rfl)
      have hsame : (fun conf => env.applyEntry conf (log (n + 1))) = some := funext fun conf =>
        Env.applyEntry_normal conf hnormal
      rw [Env.confAt, hsame, Option.bind_fun_some]
      exact ih fun i hlt hi => h i hlt (Nat.le_succ_of_le hi)

/-- **What `apply_conf_change` does**: it skips what the membership already reflects. -/
theorem Membership.applyConfChange_eq_some {m m' : Membership} {e : CommittedEntry} {saved : Bool}
    (h : m.applyConfChange env e saved = some m') :
    e.index.toNat ≤ m.confChangeIndex ∧ m' = m ∨
      m.confChangeIndex < e.index.toNat ∧
        (env.confChangeIdentity e.kind e.data).bind (env.raftApply m.confState) = some m'.confState ∧
        m'.confChangeIndex = e.index.toNat := by
  unfold Membership.applyConfChange at h
  by_cases hold : e.index.toNat ≤ m.confChangeIndex
  · rw [if_pos hold] at h
    exact .inl ⟨hold, (Option.some.inj h).symm⟩
  · rw [if_neg hold] at h
    split at h
    · cases h
    · next conf hraft =>
        cases saved with
        | false => cases h
        | true =>
            obtain rfl := Option.some.inj h
            exact .inr ⟨Nat.not_le.mp hold, hraft, rfl⟩

/-! ## Steps -/

theorem Consecutive.exists_mem {w i : Nat} {entries : List CommittedEntry} (h : Consecutive log w entries) (hlt : w < i)
    (hle : i ≤ w + entries.length) : ∃ e ∈ entries, e.index.toNat = i := by
  induction entries generalizing w with
  | nil => exact absurd hle (Nat.not_le.mpr hlt)
  | cons e entries ih =>
      obtain ⟨hindex, -, hrest⟩ := h
      rw [List.length_cons] at hle
      by_cases hi : i = w + 1
      · exact ⟨e, List.mem_cons_self, hindex.trans hi.symm⟩
      · obtain ⟨e', he', hi⟩ := ih hrest (by omega) (by omega)
        exact ⟨e', List.mem_cons_of_mem _ he', hi⟩

/-- No membership change is due in any other phase. -/
theorem not_changing {phase : Phase} (h : s.actor.phase = phase) (hphase : ∀ e, phase ≠ .changing e) :
    ∀ e, s.actor.phase ≠ .changing e :=
  h ▸ hphase

namespace Sys.Accounted

/-- A step that leaves the membership alone and loses no change. -/
theorem of_frame (h : s.Accounted env log initial) (hmembership : s'.actor.membership = s.actor.membership)
    (hdelivered : s'.history.delivered = s.history.delivered) (hcreated : s'.history.created = s.history.created)
    (hanswered : ∀ answer ∈ s'.actor.snapshotWait.join, answer.1.toNat ≤ s'.task.sm.applied.toNat)
    (hqueue : ∀ e ∈ s.actor.committedQueue, Changes log e.index.toNat →
      e ∈ s'.actor.committedQueue ∨ s'.actor.phase = .changing e)
    (hphase : ∀ e, s.actor.phase = .changing e → s'.actor.phase = .changing e)
    (hchanging : ∀ e, s'.actor.phase = .changing e → (e.kind, e.data) = log e.index.toNat) :
    s'.Accounted env log initial := by
  refine ⟨?_, ?_, hchanging, hanswered, ?_⟩
  · rw [hmembership]
    exact h.conf_eq
  · rw [hmembership, hdelivered]
    intro i hlt hle hchanges
    rcases h.pending i hlt hle hchanges with ⟨e, he, rfl⟩ | ⟨e, he, rfl⟩
    · rcases hqueue e he hchanges with he | he
      · exact .inl ⟨e, he, rfl⟩
      · exact .inr ⟨e, he, rfl⟩
    · exact .inr ⟨e, hphase e he, rfl⟩
  · rw [hcreated]
    exact h.created

/-- A step of the actor that takes nothing from the queue. -/
theorem of_actor (h : s.Accounted env log initial) (hmembership : s'.actor.membership = s.actor.membership)
    (hqueue : s'.actor.committedQueue = s.actor.committedQueue) (hsm : s'.task.sm = s.task.sm)
    (hwait : ∀ answer ∈ s'.actor.snapshotWait.join, answer ∈ s.actor.snapshotWait.join)
    (hhistory : s'.history.delivered = s.history.delivered ∧ s'.history.created = s.history.created)
    (hphase : ∀ e, s.actor.phase ≠ .changing e) (hphase' : ∀ e, s'.actor.phase ≠ .changing e) :
    s'.Accounted env log initial := by
  refine h.of_frame hmembership hhistory.1 hhistory.2 ?_ ?_ (fun e he => absurd he (hphase e))
    fun e he => absurd he (hphase' e)
  · intro answer hanswer
    rw [hsm]
    exact h.answered answer (hwait answer hanswer)
  · intro e he _
    rw [hqueue]
    exact .inl he

theorem stop (h : s.Accounted env log initial) : s.stop.Accounted env log initial :=
  h.of_frame rfl rfl rfl h.answered (fun _ he _ => .inl he) (fun _ => id) h.changing

/-- **What is picked up in time** carries its own membership. -/
theorem carries_answer (h : s.Accounted env log initial) (hordered : s.Ordered log start)
    (hphase : s.actor.phase = .polling) {answer : UInt64 × Bytes} (hanswer : answer ∈ s.actor.snapshotWait.join)
    (htimely : s.actor.membership.confChangeIndex ≤ answer.1.toNat) :
    env.confAt log initial answer.1.toNat = some s.actor.membership.confState := by
  rw [← h.conf_eq]
  refine Env.confAt_eq htimely fun i hlt hle hchanges => ?_
  have happlied : i ≤ s.task.sm.applied.toNat := hle.trans (h.answered answer hanswer)
  rcases h.pending i hlt (happlied.trans hordered.waiting.le) hchanges with ⟨e, he, rfl⟩ | ⟨e, he, -⟩
  · -- what is still in the queue is above the state machine
    have hmem : e.item ∈ s.waiting := List.mem_append_right _ (List.mem_append_right _ (List.mem_map_of_mem he))
    exact absurd (hordered.waiting.lt_entry hmem) (Nat.not_lt.mpr happlied)
  · cases hphase.symm.trans he

theorem poll (h : s.Accounted env log initial) (hordered : s.Ordered log start) (hphase : s.actor.phase = .polling)
    {term : Option UInt64} (htimely : s.Timely env log initial (.poll term)) :
    (s.pollSnapshot term).Accounted env log initial := by
  have hnot := not_changing hphase fun _ => Phase.noConfusion
  rcases s.pollSnapshot_cases term with heq | heq | ⟨index, data, saved, hwait, rfl, heq⟩ <;> rw [heq]
  · exact h.stop
  · exact h.of_actor rfl rfl rfl (fun _ => id) ⟨rfl, rfl⟩ hnot (fun _ => Phase.noConfusion)
  · have hanswer : (index, data) ∈ s.actor.snapshotWait.join := by
      rw [hwait]
      rfl
    have hframe : ({ s with
        actor.phase := .stepping
        actor.snapshotWait := none
        actor.book.snapshotIndex := index.toNat
        actor.book.appliedBytesAtSnapshot := s.actor.book.appliedBytesTotal } : Sys).Accounted env log initial :=
      h.of_actor rfl rfl rfl (fun answer hanswer => by cases hanswer) ⟨rfl, rfl⟩ hnot (fun _ => Phase.noConfusion)
    refine ⟨hframe.conf_eq, hframe.pending, hframe.changing, hframe.answered, ?_⟩
    exact List.forall_mem_cons.mpr ⟨h.carries_answer hordered hphase hanswer (htimely _ hanswer), h.created⟩

theorem deliver (h : s.Accounted env log initial) (hphase : s.actor.phase = .stepping) {snapshot : Option Snapshot}
    {entries : List CommittedEntry} (hd : Delivery log s.history.delivered snapshot entries)
    (htimely : s.Timely env log initial (.deliver snapshot entries)) :
    (s.stageCommitted env snapshot entries).Accounted env log initial := by
  have hphase' : ∀ e, (s.stageCommitted env snapshot entries).actor.phase ≠ .changing e := by
    intro e he
    cases snapshot with
    | none => cases he
    | some snap => cases he
  refine ⟨?_, ?_, fun e he => absurd he (hphase' e), h.answered, h.created⟩
  · cases snapshot with
    | none => exact h.conf_eq
    | some snap =>
        show env.confAt log initial (s.actor.membership.adopt snap).confChangeIndex =
          some (s.actor.membership.adopt snap).confState
        unfold Membership.adopt
        split_ifs
        · exact htimely snap rfl
        · exact h.conf_eq
  · intro i hlt hle hchanges
    refine .inl ?_
    replace hle : i ≤ lastDelivered s.history.delivered snapshot entries := hle
    rw [hd.consecutive.lastDelivered_eq] at hle
    by_cases hnew : snapshot.elim s.history.delivered (fun snap => snap.metadata.index.toNat) < i
    · obtain ⟨e, he, hi⟩ := hd.consecutive.exists_mem hnew hle
      exact ⟨e, List.mem_append_right _ he, hi⟩
    · -- nothing else is above an installed snapshot
      cases snapshot with
      | none =>
          rcases h.pending i hlt (Nat.not_lt.mp hnew) hchanges with ⟨e, he, hi⟩ | ⟨e, he, -⟩
          · exact ⟨e, List.mem_append_left _ he, hi⟩
          · cases hphase.symm.trans he
      | some snap =>
          refine absurd hlt (Nat.not_lt.mpr ((Nat.not_lt.mp hnew).trans ?_))
          show snap.metadata.index.toNat ≤ (s.actor.membership.adopt snap).confChangeIndex
          unfold Membership.adopt
          split_ifs with hnewer
          · exact le_rfl
          · exact Nat.not_lt.mp hnewer

theorem pump (h : s.Accounted env log initial) (hbarred : s.Barred log) (hphase : s.actor.phase = .pumping) :
    (s.pumpCommitted env).Accounted env log initial := by
  have hnot := not_changing hphase fun _ => Phase.noConfusion
  unfold Sys.pumpCommitted
  split
  · exact h.of_actor rfl rfl rfl (fun _ => id) ⟨rfl, rfl⟩ hnot (fun _ => Phase.noConfusion)
  · next e rest hqueue =>
    split_ifs with hnormal hbarrier
    · rcases Sys.orStop_enqueueApply env s _ none _ .pumping with heq | ⟨book, deferred, channel, handOver, heq, -, -⟩
      · rw [heq]
        exact h.stop
      · rw [heq]
        refine h.of_frame rfl rfl rfl h.answered ?_ (fun e he => absurd he (hnot e)) fun _ he => by cases he
        -- a change is not among the normal entries that are taken
        intro e' he' hchanges
        refine .inl ?_
        have hkind := congrArg Prod.fst (hbarred.queue e' he')
        rw [hqueue, ← List.takeWhile_append_dropWhile (p := CommittedEntry.isNormal) (l := e :: rest)] at he'
        refine (List.mem_append.mp he').resolve_left fun htaken => hchanges ?_
        have hnormal' : e'.isNormal := List.mem_takeWhile_imp htaken
        exact hkind.symm.trans (of_decide_eq_true hnormal')
    · exact h.of_actor rfl rfl rfl (fun _ => id) ⟨rfl, rfl⟩ hnot (fun _ => Phase.noConfusion)
    · rcases Sys.orStop_enqueueApply env s _ none _ (.changing e) with
        heq | ⟨book, deferred, channel, handOver, heq, -, -⟩
      · rw [heq]
        exact h.stop
      · rw [heq]
        refine h.of_frame rfl rfl rfl h.answered ?_ (fun e he => absurd he (hnot e)) ?_
        · intro e' he' _
          rw [hqueue] at he'
          rcases List.mem_cons.mp he' with rfl | he'
          · exact .inr rfl
          · exact .inl he'
        · intro e' he'
          obtain rfl := Phase.changing.inj he'
          exact hbarred.queue e (hqueue ▸ List.mem_cons_self)

/-- A change that is due is the next one above the stored membership. -/
theorem confAt_change (h : s.Accounted env log initial) {e : CommittedEntry} (hphase : s.actor.phase = .changing e)
    (hbarrier : s.AtBarrier log e) (hnew : s.actor.membership.confChangeIndex < e.index.toNat) :
    env.confAt log initial e.index.toNat = env.applyEntry s.actor.membership.confState (log e.index.toNat) := by
  obtain ⟨n, hn⟩ : ∃ n, e.index.toNat = n + 1 := ⟨e.index.toNat - 1, by omega⟩
  have hbefore : env.confAt log initial n = some s.actor.membership.confState := by
    rw [← h.conf_eq]
    -- a change in between would be in the queue, behind the one that is due
    refine Env.confAt_eq (by omega) fun i hlt hle hchanges => ?_
    have hdelivered := hbarrier.delivered
    rcases h.pending i hlt (by omega) hchanges with ⟨e', he', rfl⟩ | ⟨e', he', hi⟩
    · have hgt := hbarrier.rest e' he'
      omega
    · obtain rfl := Phase.changing.inj (hphase.symm.trans he')
      omega
  rw [hn, Env.confAt, hbefore]
  rfl

theorem change (h : s.Accounted env log initial) {e : CommittedEntry} (hphase : s.actor.phase = .changing e)
    (hbarrier : s.AtBarrier log e) (saved : Bool) : (s.changeMembership env e saved).Accounted env log initial := by
  simp only [Sys.changeMembership]
  split
  · exact h.stop.of_frame rfl rfl rfl h.answered (fun _ he _ => .inl he) (fun _ => id) h.changing
  · next membership hchange =>
      have hpending : ∀ i, s.actor.membership.confChangeIndex < i → e.index.toNat < i → i ≤ s.history.delivered →
          Changes log i → ∃ e ∈ s.actor.committedQueue, e.index.toNat = i := by
        intro i hlt hi hle hchanges
        refine (h.pending i hlt hle hchanges).resolve_right ?_
        rintro ⟨e', he', rfl⟩
        obtain rfl := Phase.changing.inj (hphase.symm.trans he')
        exact Nat.lt_irrefl _ hi
      rcases Membership.applyConfChange_eq_some hchange with ⟨hold, rfl⟩ | ⟨hnew, hraft, hindex⟩
      · -- already reflected: the entry is skipped
        refine ⟨h.conf_eq, fun i hlt hle hchanges => .inl ?_, fun _ he => (by cases he), h.answered, h.created⟩
        exact hpending i hlt (lt_of_le_of_lt hold hlt) hle hchanges
      · refine ⟨?_, fun i hlt hle hchanges => .inl ?_, fun _ he => (by cases he), h.answered, h.created⟩
        · show env.confAt log initial membership.confChangeIndex = some membership.confState
          rw [hindex, h.confAt_change hphase hbarrier hnew, Env.applyEntry_change _ hbarrier.change, ← h.changing e hphase]
          exact hraft
        · replace hlt : e.index.toNat < i := hindex ▸ hlt
          exact hpending i (hnew.trans hlt) hlt hle hchanges

theorem step (h : s.Accounted env log initial) (hordered : s.Ordered log start) (hbarred : s.Barred log)
    (hstep : s.Step env log a s') (htimely : s.Timely env log initial a) : s'.Accounted env log initial := by
  have happlied := hordered.applied_le hstep
  cases Sys.moves_of_exec hstep.1 with
  | serve hphase =>
      have hnot := not_changing hphase fun _ => Phase.noConfusion
      exact h.of_actor rfl rfl rfl (fun _ => id) ⟨rfl, rfl⟩ hnot hnot
  | absorb hphase =>
      have hnot := not_changing hphase fun _ => Phase.noConfusion
      exact h.of_actor rfl rfl rfl (fun _ => id) ⟨rfl, rfl⟩ hnot fun _ => Phase.noConfusion
  | poll hphase => exact h.poll hordered hphase htimely
  | deliver hphase => exact h.deliver hphase (hstep.2 _ _ rfl) htimely
  | @install snapshot hphase =>
      rcases Sys.orStop_enqueueApply env s s (some snapshot) [] .pumping with
        heq | ⟨book, deferred, channel, handOver, heq, -, -⟩
      · rw [heq]
        exact h.stop
      · rw [heq]
        have hnot := not_changing hphase fun _ => Phase.noConfusion
        exact h.of_actor rfl rfl rfl (fun _ => id) ⟨rfl, rfl⟩ hnot fun _ => Phase.noConfusion
  | pump hphase => exact h.pump hbarred hphase
  | @change e saved hphase hrunning => exact h.change hphase (hbarred.changing e hrunning hphase) saved
  | finish hphase =>
      have hnot := not_changing hphase fun _ => Phase.noConfusion
      rcases s.maybeSnapshot_cases env with heq | heq | heq <;> rw [heq]
      · exact h.stop
      · exact h.of_actor rfl rfl rfl (fun _ => id) ⟨rfl, rfl⟩ hnot fun _ => Phase.noConfusion
      · exact h.of_actor rfl rfl rfl (fun _ hanswer => by cases hanswer) ⟨rfl, rfl⟩ hnot fun _ => Phase.noConfusion
  | halt => exact h.stop
  | take hfailed hworking htake =>
      rcases Sys.takeRequest_eq_some htake with ⟨batch, rest, -, rfl⟩ | ⟨rest, -, rfl⟩
      · exact h.of_frame rfl rfl rfl h.answered (fun _ he _ => .inl he) (fun _ => id) h.changing
      · -- the answer is for the state machine as it is
        refine h.of_frame rfl rfl rfl ?_ (fun _ he _ => .inl he) (fun _ => id) h.changing
        intro answer hanswer
        obtain rfl := Option.some.inj hanswer
        exact le_rfl
  | @work batch hfailed hworking =>
      obtain ⟨hactor, hhistory, -, -⟩ := s.work_frame batch
      refine h.of_frame ?_ ?_ ?_ ?_ ?_ ?_ ?_
      · rw [hactor]
      · rw [hhistory]
      · rw [hhistory]
      · intro answer hanswer
        rw [hactor] at hanswer
        exact (h.answered answer hanswer).trans happlied
      · rw [hactor]
        exact fun _ he _ => .inl he
      · rw [hactor]
        exact fun _ => id
      · rw [hactor]
        exact h.changing
  | close hfailed => exact h.of_frame rfl rfl rfl h.answered (fun _ he _ => .inl he) (fun _ => id) h.changing

end Sys.Accounted

/-! ## Runs -/

theorem accounted_start {sm : Store} {membership : Membership} (clock : Option Nat)
    (hconf : env.confAt log initial membership.confChangeIndex = some membership.confState)
    (hle : sm.applied.toNat ≤ membership.confChangeIndex) :
    (Sys.start sm membership clock).Accounted env log initial := by
  refine ⟨hconf, fun i hlt hi => ?_, fun _ he => ?_, fun _ hanswer => ?_, fun _ hsnapshot => ?_⟩
  · exact absurd (lt_of_lt_of_le hlt (hi.trans hle)) (Nat.lt_irrefl _)
  · cases he
  · cases hanswer
  · cases hsnapshot

/-- Timely actions, for runs that are evaluated. -/
def Sys.execTimely (env : Env) (log : Nat → EntryType × Bytes) (initial : ConfState) (s : Sys) (a : Action) : Option Sys :=
  if s.Timely env log initial a then s.execBlank env log a else none

theorem TimelyRun.of_foldlM {first : Sys} {ops : List Action}
    (h : ops.foldlM (Sys.execTimely env log initial) first = some s) : TimelyRun env log initial first ops s := by
  refine Transition.Run.of_foldlM (fun s a s' hstep => ?_) rfl h
  obtain ⟨htimely, hexec⟩ := Option.ite_none_right_eq_some.mp hstep
  exact ⟨Sys.step_of_execBlank hexec, htimely⟩

/-- One member, and a snapshot is due after any growth of the log. -/
def snapping : Env := { addSeven with snapshotThresholdBytes := 1 }

def oneMember : Membership := { confState := ⟨[1], []⟩, confChangeIndex := 0 }

/-- The entry at 1 is applied, and a snapshot asked for in the next cycle. -/
def askingActions : List Action :=
  [ .absorb, .poll none, .deliver none [blankEntry 1], .pump, .pump, .finish, .take, .work, .work,
    .absorb, .poll none, .deliver none [], .pump, .finish ]

/-- The snapshot at 1 is picked up before the membership changes at 2, the one at 2 afterwards. -/
def timelyActions : List Action :=
  askingActions ++
    [ .take, .absorb, .poll (some 1), .deliver none [⟨2, .confChange, []⟩], .pump, .change true, .pump, .finish,
      .take, .work, .work, .absorb, .poll none, .deliver none [], .pump, .finish, .take, .absorb, .poll (some 1) ]

/-- The membership changes at 2 while the snapshot at 1 is on its way. -/
def overtakenActions : List Action :=
  askingActions ++
    [ .absorb, .poll none, .deliver none [⟨2, .confChange, []⟩], .pump, .change true, .pump, .finish,
      .take, .absorb, .poll (some 1) ]

end Arachne.Runtime.Pipeline
