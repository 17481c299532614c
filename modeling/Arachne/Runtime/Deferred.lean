import Arachne.Runtime.Barrier

/-! # Deferred work

A batch the channel has no room for is kept as `deferred`, "for the next cycle". Only `enqueue_apply` tries to
hand it over again, and `pump_committed` only calls it with an entry it can dispatch. A cycle that delivers
nothing, or in which the barrier holds the front of the queue back, does not try, and the batch stays where it
is although the channel may be empty. -/

namespace Arachne.Runtime.Pipeline

open Codec (Bytes)
open StateMachine (Store)
open Storage (EntryType Snapshot)

variable {env : Env} {log : Nat → EntryType × Bytes} {s s' : Sys} {a : Action}

/-- No batch is held, or the cycle tried to hand it over and found the channel full. -/
def Sys.Tried (s : Sys) : Prop := s.actor.deferred = none ∨ s.history.handOver = some .full

/-- The front of the queue is a normal entry, or a membership change that the barrier lets through. -/
def Dispatchable (appliedIndex : Nat) : List CommittedEntry → Prop
  | [] => False
  | e :: _ => e.isNormal ∨ e.index.toNat ≤ appliedIndex + 1

instance decidableDispatchable (appliedIndex : Nat) (queue : List CommittedEntry) :
    Decidable (Dispatchable appliedIndex queue) := by
  cases queue with
  | nil => exact instDecidableFalse
  | cons e rest => exact instDecidableOr

/-- What `node.step` returned makes the cycle hand work over, if a batch is held. -/
def Sys.Prompting (s : Sys) : Action → Prop
  | .deliver snapshot entries =>
    s.actor.deferred = none ∨ snapshot.isSome ∨
      Dispatchable s.actor.appliedIndex (retainAbove snapshot s.actor.committedQueue ++ entries)
  | _ => True

instance decidablePrompting (s : Sys) (a : Action) : Decidable (s.Prompting a) := by
  cases a with
  | deliver snapshot entries => exact instDecidableOr
  | _ => exact instDecidableTrue

/-- Where the attempt is still to come. -/
def Sys.Unstranded (s : Sys) : Prop :=
  match s.actor.phase with
  | .polling | .stepping | .installing _ => True
  | .pumping => s.Tried ∨ Dispatchable s.actor.appliedIndex s.actor.committedQueue
  | .idle | .changing _ | .resolving => s.Tried

/-- `enqueue_apply` tries. -/
theorem Sys.tried_of_enqueueApply {snapshot : Option Snapshot} {entries : List (UInt64 × Bytes)}
    (h : s.enqueueApply env snapshot entries = some s') : s'.Tried := by
  unfold Sys.enqueueApply at h
  split_ifs at h with hnothing
  · obtain rfl := Option.some.inj h
    exact .inl (Option.isNone_iff_eq_none.mp hnothing.2.2)
  · simp only [Sys.flushDeferred] at h
    split_ifs at h
    · obtain rfl := Option.some.inj h
      exact .inl rfl
    · obtain rfl := Option.some.inj h
      exact .inr rfl

/-- After an attempt the cycle goes on, or the actor stops where it was. -/
theorem Sys.Unstranded.orStop (h : s.Unstranded) {popped : Sys} {snapshot : Option Snapshot}
    {entries : List (UInt64 × Bytes)} {phase : Phase} :
    (s.orStop phase (popped.enqueueApply env snapshot entries)).Unstranded := by
  cases henqueue : popped.enqueueApply env snapshot entries with
  | none => exact h
  | some s' =>
      have htried : s'.Tried := Sys.tried_of_enqueueApply henqueue
      unfold Sys.Unstranded
      simp only [Sys.orStop]
      cases phase with
      | pumping => exact .inl htried
      | idle => exact htried
      | changing e => exact htried
      | resolving => exact htried
      | _ => trivial

theorem Sys.Unstranded.pump (h : s.Unstranded) (hphase : s.actor.phase = .pumping) :
    (s.pumpCommitted env).Unstranded := by
  have hready : s.Tried ∨ Dispatchable s.actor.appliedIndex s.actor.committedQueue := by
    unfold Sys.Unstranded at h
    rwa [hphase] at h
  unfold Sys.pumpCommitted
  split
  · next hqueue =>
    rw [hqueue] at hready
    exact hready.resolve_right id
  · next e rest hqueue =>
    rw [hqueue] at hready
    split_ifs with hnormal hbarrier
    · exact h.orStop
    · -- The barrier ends the pump, so the front was not what made this cycle try.
      refine hready.resolve_right ?_
      rintro (hdispatch | hdispatch)
      · exact hnormal hdispatch
      · omega
    · exact h.orStop

/-- A step of the task leaves the actor's attempts alone. -/
theorem Sys.Unstranded.of_task (h : s.Unstranded) (hactor : ∃ wait, s'.actor = { s.actor with snapshotWait := wait })
    (hhistory : s'.history = { s.history with fed := s'.history.fed }) : s'.Unstranded := by
  obtain ⟨wait, hactor⟩ := hactor
  have htried : s.Tried → s'.Tried := by
    unfold Sys.Tried
    rw [hactor, hhistory]
    exact id
  unfold Sys.Unstranded at h ⊢
  rw [hactor]
  revert h
  cases s.actor.phase with
  | pumping => exact Or.imp_left htried
  | idle => exact htried
  | changing e => exact htried
  | resolving => exact htried
  | _ => exact id

theorem Sys.Unstranded.step (h : s.Unstranded) (hprompting : s.Prompting a) (hstep : s.Step env log a s') :
    s'.Unstranded := by
  cases Sys.moves_of_exec hstep.1 with
  | serve hphase =>
      unfold Sys.Unstranded at h ⊢
      exact h
  | absorb hphase => trivial
  | @poll term hphase =>
      have hstop : s.stop.Unstranded := h
      rcases s.pollSnapshot_cases term with heq | heq | ⟨index, data, saved, -, -, heq⟩ <;> rw [heq]
      · exact hstop
      · trivial
      · trivial
  | @deliver snapshot entries hphase =>
      cases snapshot with
      | some snapshot => trivial
      | none =>
          rcases hprompting with hnone | hsome | hdispatch
          · exact .inl (.inl hnone)
          · cases hsome
          · exact .inr hdispatch
  | install hphase => exact h.orStop
  | pump hphase => exact h.pump hphase
  | change hphase hrunning =>
      have htried : s.Tried := by
        unfold Sys.Unstranded at h
        rwa [hphase] at h
      simp only [Sys.changeMembership]
      split
      · unfold Sys.Unstranded
        simp only [Sys.stop, hphase]
        exact htried
      · exact .inl htried
  | finish hphase =>
      have htried : s.Tried := by
        unfold Sys.Unstranded at h
        rwa [hphase] at h
      rcases s.maybeSnapshot_cases env with heq | heq | heq <;> rw [heq]
      · exact h
      · exact htried
      · exact htried
  | halt => exact h
  | take hfailed hworking htake =>
      rcases Sys.takeRequest_eq_some htake with ⟨batch, rest, -, rfl⟩ | ⟨rest, -, rfl⟩
      · exact h.of_task ⟨_, rfl⟩ rfl
      · exact h.of_task ⟨_, rfl⟩ rfl
  | @work batch hfailed hworking =>
      obtain ⟨hactor, hhistory, -, -⟩ := s.work_frame batch
      exact h.of_task ⟨_, hactor⟩ hhistory
  | close hfailed => exact h.of_task ⟨_, rfl⟩ rfl

/-- **Deferred work is not stranded** as long as every cycle that begins with a deferred batch brings a snapshot, or
has an entry to dispatch: at the end of a cycle that did not stop, a batch that is still held found the channel
full. -/
theorem deferred_not_stranded {sm : Store} {membership : Membership} {clock : Option Nat} {ops : List Action}
    (h : Transition.Run (· = Sys.start sm membership clock) (fun s a s' => s.Prompting a ∧ s.Step env log a s') ops s)
    (hphase : s.actor.phase = .idle) (hheld : s.actor.deferred.isSome) :
    s.history.handOver = some .full := by
  have hinv : s.Unstranded := by
    refine h.invariant (P := fun _ s => s.Unstranded) ?_ ?_
    · rintro s rfl
      exact .inl rfl
    · intro _ s a s' _ hs hstep
      exact hs.step hstep.1 hstep.2
  unfold Sys.Unstranded at hinv
  rw [hphase] at hinv
  refine hinv.resolve_left ?_
  intro hnone
  rw [hnone] at hheld
  cases hheld

/-- A cycle that delivers one no-op. -/
def blankCycle (index : UInt64) : List Action :=
  [.absorb, .poll none, .deliver none [blankEntry index], .pump, .pump, .finish]

/-- The first entry fills the channel, and the second has to wait. -/
theorem deferred_not_stranded_narrow :
    ∃ s, Transition.Run (· = Sys.start .new noMembers none)
        (fun s a s' => s.Prompting a ∧ s.Step narrow blankLog a s') (blankCycle 1 ++ blankCycle 2) s ∧
      s.actor.deferred = some { snapshot := none, entries := [(2, [])] } ∧ s.history.handOver = some .full := by
  have heval : ((blankCycle 1 ++ blankCycle 2).foldlM
      (fun s a => if Sys.Prompting s a then s.execBlank narrow blankLog a else none)
      (Sys.start .new noMembers none)).any (fun s =>
        s.actor.deferred = some { snapshot := none, entries := [(2, [])] } ∧ s.actor.phase = .idle) := by
    decide +kernel
  obtain ⟨s, hs, hfacts⟩ := (Option.any_eq_true _ _).mp heval
  obtain ⟨hdeferred, hphase⟩ := of_decide_eq_true hfacts
  have hrun : Transition.Run (· = Sys.start .new noMembers none)
      (fun s a s' => s.Prompting a ∧ s.Step narrow blankLog a s') (blankCycle 1 ++ blankCycle 2) s := by
    refine Transition.Run.of_foldlM (fun s a s' h => ?_) rfl hs
    obtain ⟨hprompting, h⟩ := Option.ite_none_right_eq_some.mp h
    exact ⟨hprompting, Sys.step_of_execBlank h⟩
  exact ⟨s, hrun, hdeferred, deferred_not_stranded hrun hphase (hdeferred ▸ rfl)⟩

/-! ## A stranded batch -/

def applyQueueDepth : Nat := 256

def deep : Env := { narrow with capacity := applyQueueDepth }

/-- The channel is filled and one more entry is committed. The task works the channel off, and a cycle follows in
which nothing is committed. -/
def strandingActions : List Action :=
  (List.range (applyQueueDepth + 1)).flatMap (fun i => blankCycle (UInt64.ofNat (i + 1))) ++
    (List.range applyQueueDepth).flatMap (fun _ => [.take, .work, .work]) ++
    [.absorb, .poll none, .deliver none [], .pump, .finish]

theorem deferred_stranded :
    ∃ s, PipelineRun deep blankLog (Sys.start .new noMembers none) strandingActions s ∧ s.actor.stopped = false ∧
      s.actor.phase = .idle ∧ s.channel = [] ∧ s.task.working = none ∧ s.actor.deferred.isSome ∧
      s.history.handOver = none := by
  have heval : (strandingActions.foldlM (Sys.execBlank deep blankLog) (Sys.start .new noMembers none)).any (fun s =>
      s.actor.stopped = false ∧ s.actor.phase = .idle ∧ s.channel = [] ∧ s.task.working = none ∧
        s.actor.deferred.isSome ∧ s.history.handOver = none) := by
    decide +kernel
  obtain ⟨s, hs, hfacts⟩ := (Option.any_eq_true _ _).mp heval
  exact ⟨s, .of_foldlM (fun _ _ _ => Sys.step_of_execBlank) rfl hs, of_decide_eq_true hfacts⟩

end Arachne.Runtime.Pipeline
