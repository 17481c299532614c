import Arachne.Runtime.ReadGate

/-! # The version of a read

`resolve_reads` lets a read through by the actor's own applied index, and compares the read's index with the state
machine's only to raise an alert that "must never fire". The actor's index is the state machine's at the start of a
cycle. Over a membership change the actor moves its index on by itself, while the no-op that takes the state machine
there is still on its way (`Sys.Led`). A read that is resolved in the same cycle then finds the state machine below its
index: the value is right, as `linearizable_read_gate` says, but the version that `multi_get` returns with it is too
low (`read_version_lags`).

Nothing else makes the two indices differ. So wherever reads are resolved only when the changes made so far have reached
the state machine, every version is at least the read's index (`read_version_reaches`). -/

namespace Arachne.StateMachine

open Codec

/-- `MAX_MULTI_GET_RESULT_BYTES`. -/
def maxMultiGetResultBytes : Nat := 4 * 1024 * 1024

/-- The values of the keys in order, unless there are too many bytes of them. -/
def Store.collect (st : Store) : List Bytes → Nat → Option (List (Option Bytes))
  | [], _ => some []
  | key :: keys, totalBytes =>
    match st.kv[key]? with
    | none => (st.collect keys totalBytes).map (none :: ·)
    | some entry =>
      if totalBytes + entry.val.length > maxMultiGetResultBytes then none
      else (st.collect keys (totalBytes + entry.val.length)).map (some entry.val :: ·)

/-- `multi_get`: the values, and the version they are of. `none` is `ResultTooLarge`. -/
def Store.multiGet (st : Store) (keys : List Bytes) : Option (List (Option Bytes) × UInt64) :=
  (st.collect keys 0).map fun values => (values, st.applied)

theorem Store.applied_of_multiGet {st : Store} {keys : List Bytes} {values : List (Option Bytes)} {applied : UInt64}
    (h : st.multiGet keys = some (values, applied)) : applied = st.applied := by
  obtain ⟨_, -, heq⟩ := Option.map_eq_some_iff.mp h
  exact (Prod.mk.inj heq).2.symm

end Arachne.StateMachine

namespace Arachne.Runtime.Pipeline

open Codec (Bytes)
open StateMachine (Store)
open Storage (EntryType Snapshot)

variable {env : Env} {log : Nat → EntryType × Bytes} {timeout start : Nat}

/-! ## How far the actor is ahead -/

/-- The actor's index is not above the state machine's, or it is the one of a membership change it has made. -/
def Sys.Led (s : Sys) : Prop := s.actor.appliedIndex ≤ s.task.sm.applied.toNat ∨ s.actor.appliedIndex ∈ s.history.calls

/-- Every membership change that was made has reached the state machine. -/
def Sys.CaughtUp (s : Sys) : Prop := ∀ c ∈ s.history.calls, c ≤ s.task.sm.applied.toNat

instance decidableCaughtUp (s : Sys) : Decidable s.CaughtUp :=
  inferInstanceAs (Decidable (∀ c ∈ s.history.calls, c ≤ s.task.sm.applied.toNat))

section

variable {s s' : Sys} {a : Action}

/-- A step that neither begins a cycle nor changes the membership. -/
theorem Sys.Led.mono (h : s.Led) (happlied : s.task.sm.applied.toNat ≤ s'.task.sm.applied.toNat)
    (hindex : s'.actor.appliedIndex = s.actor.appliedIndex) (hcalls : s'.history.calls = s.history.calls) : s'.Led := by
  rw [Sys.Led, hindex, hcalls]
  exact h.imp_left fun hle => hle.trans happlied

theorem Sys.Led.change (h : s.Led) (e : CommittedEntry) (saved : Bool) : (s.changeMembership env e saved).Led := by
  simp only [Sys.changeMembership]
  split
  · exact h.imp_right (List.mem_cons_of_mem _)
  · show max s.actor.appliedIndex e.index.toNat ≤ _ ∨ max s.actor.appliedIndex e.index.toNat ∈ e.index.toNat :: _
    rcases Nat.le_total s.actor.appliedIndex e.index.toNat with hle | hle
    · rw [Nat.max_eq_right hle]
      exact .inr List.mem_cons_self
    · rw [Nat.max_eq_left hle]
      exact h.imp_right (List.mem_cons_of_mem _)

/-- Handing work over does not touch any of it. -/
theorem Sys.Led.orStop (h : s.Led) {popped : Sys} (hpopped : popped.Led) (snapshot : Option Snapshot)
    (entries : List (UInt64 × Bytes)) (phase : Phase) :
    (s.orStop phase (popped.enqueueApply env snapshot entries)).Led := by
  rcases Sys.orStop_enqueueApply env s popped snapshot entries phase with
    heq | ⟨book, deferred, channel, handOver, heq, -, -⟩
  · rw [heq]
    exact h
  · rw [heq]
    exact hpopped

theorem Sys.Led.pump (h : s.Led) : (s.pumpCommitted env).Led := by
  unfold Sys.pumpCommitted
  split
  · exact h
  · split_ifs
    · refine h.orStop ?_ none _ .pumping
      exact h
    · exact h
    · refine h.orStop ?_ none _ (.changing _)
      exact h

theorem Sys.Led.step (h : s.Led) (hordered : s.Ordered log start) (hbarred : s.Barred log)
    (hstep : s.Step env log a s') : s'.Led := by
  have happlied := hordered.applied_le hstep
  cases Sys.moves_of_exec hstep.1 with
  | serve hphase => exact h
  | absorb hphase => exact .inl hbarred.progress
  | @poll term hphase =>
      rcases s.pollSnapshot_cases term with heq | heq | ⟨index, data, saved, -, -, heq⟩
      all_goals
        rw [heq]
        exact h
  | deliver hphase => exact h
  | @install snapshot hphase => exact h.orStop h (some snapshot) [] .pumping
  | pump hphase => exact h.pump
  | change hphase hrunning => exact h.change _ _
  | finish hphase =>
      rcases s.maybeSnapshot_cases env with heq | heq | heq
      all_goals
        rw [heq]
        exact h
  | halt => exact h
  | take hfailed hworking htake =>
      rcases Sys.takeRequest_eq_some htake with ⟨batch, rest, hchannel, rfl⟩ | ⟨rest, hchannel, rfl⟩
      · exact h
      · exact h
  | @work batch hfailed hworking =>
      obtain ⟨hactor, hhistory, -, -⟩ := s.work_frame batch
      refine h.mono happlied ?_ ?_
      · rw [hactor]
      · rw [hhistory]
  | close hfailed => exact h

theorem Sys.Led.le_applied (h : s.Led) (hcaught : s.CaughtUp) : s.actor.appliedIndex ≤ s.task.sm.applied.toNat :=
  h.elim id (hcaught _)

end

/-! ## Runs -/

variable {s s' : ReadSys} {a : ReadAction}

/-- Runs in which reads are only resolved when the state machine has caught up with the membership changes. -/
abbrev CaughtUpRun (env : Env) (log : Nat → EntryType × Bytes) (timeout : Nat) (first : ReadSys) :
    List ReadAction → ReadSys → Prop :=
  Transition.Run (· = first) fun s a s' =>
    s.Step env log timeout a s' ∧ ∀ leader now, a = .resolve leader now → s.pipe.CaughtUp

/-- The state machine has reached the index of every read that was let through. -/
def ReadSys.Versioned (s : ReadSys) : Prop := ∀ d ∈ s.dispatched, d.readIndex.toNat ≤ s.pipe.task.sm.applied.toNat

/-- Which reads a step lets through. -/
theorem ReadSys.dispatched_of_exec (h : s.exec env timeout a = some s') {d : Dispatched} (hd : d ∈ s'.dispatched) :
    d ∈ s.dispatched ∨ (∃ leader now, a = .resolve leader now) ∧ d.readIndex.toNat ≤ s.pipe.actor.appliedIndex := by
  cases a with
  | pipe b =>
      obtain ⟨-, h⟩ := Option.ite_none_right_eq_some.mp h
      obtain ⟨pipe, -, rfl⟩ := Option.map_eq_some_iff.mp h
      exact .inl hd
  | read kind leader now =>
      simp only [ReadSys.exec] at h
      split at h
      · obtain rfl := Option.some.inj h
        simp only [ReadSys.read] at hd
        split_ifs at hd <;> exact .inl hd
      · cases h
  | step snapshot entries answers =>
      obtain ⟨pipe, -, rfl⟩ := Option.map_eq_some_iff.mp h
      simp only [ReadSys.stamp] at hd
      split_ifs at hd <;> exact .inl hd
  | resolve leader now =>
      obtain ⟨pipe, -, rfl⟩ := Option.map_eq_some_iff.mp h
      rcases List.mem_append.mp hd with hold | hnew
      · exact .inl hold
      · obtain ⟨out, hout, hleft⟩ := List.mem_filterMap.mp hnew
        obtain ⟨r, -, hresolve⟩ := List.mem_filterMap.mp hout
        obtain rfl := Sum.getLeft?_eq_some_iff.mp hleft
        exact .inr ⟨⟨leader, now, rfl⟩, (resolveRead_eq_inl hresolve).2.1⟩
  | reply k =>
      obtain ⟨-, h⟩ := Option.ite_none_right_eq_some.mp h
      obtain rfl := Option.some.inj h
      exact .inl (List.mem_of_mem_eraseIdx hd)
  | commit n =>
      obtain ⟨-, h⟩ := Option.ite_none_right_eq_some.mp h
      obtain rfl := Option.some.inj h
      exact .inl hd

structure ReadSys.Current (log : Nat → EntryType × Bytes) (start : Nat) (s : ReadSys) : Prop where
  ordered : s.pipe.Ordered log start
  barred : s.pipe.Barred log
  led : s.pipe.Led
  versioned : s.Versioned

theorem ReadSys.Current.step (h : s.Current log start) (hstep : s.Step env log timeout a s')
    (hcaught : ∀ leader now, a = .resolve leader now → s.pipe.CaughtUp) : s'.Current log start := by
  have hversioned (happlied : s.pipe.task.sm.applied.toNat ≤ s'.pipe.task.sm.applied.toNat) : s'.Versioned := by
    intro d hd
    refine le_trans ?_ happlied
    rcases ReadSys.dispatched_of_exec hstep.1 hd with hold | ⟨⟨leader, now, hresolve⟩, hle⟩
    · exact h.versioned d hold
    · exact hle.trans (h.led.le_applied (hcaught leader now hresolve))
  rcases ReadSys.pipe_step hstep with hsame | ⟨b, hb, -⟩
  · refine ⟨hsame ▸ h.ordered, hsame ▸ h.barred, hsame ▸ h.led, hversioned ?_⟩
    rw [hsame]
  · exact ⟨h.ordered.step hb, h.barred.step h.ordered hb, h.led.step h.ordered h.barred hb,
      hversioned (h.ordered.applied_le hb)⟩

/-- **The version reaches the read's index.** If reads are resolved only when the membership changes made so far have
reached the state machine, then it is at or above the index of every read that was let through, and so is the version
that `multi_get` returns for it. -/
theorem read_version_reaches {sm : Store} {membership : Membership} {clock : Option Nat} {committed : Nat}
    {ops : List ReadAction} (h : CaughtUpRun env log timeout (ReadSys.start sm membership clock committed) ops s) :
    ∀ d ∈ s.dispatched, d.readIndex.toNat ≤ s.pipe.task.sm.applied.toNat ∧
      ∀ keys values applied, d.kind = .many keys → s.pipe.task.sm.multiGet keys = some (values, applied) →
        d.readIndex.toNat ≤ applied.toNat := by
  have hcurrent : s.Current log sm.applied.toNat := by
    refine h.invariant (P := fun _ s => s.Current log sm.applied.toNat) ?_ fun _ _ _ _ _ hs hstep => hs.step hstep.1 hstep.2
    rintro s rfl
    exact ⟨ordered_start log sm membership clock, barred_start log sm membership clock, .inl (Nat.le_refl _), nofun⟩
  intro d hd
  have hle := hcurrent.versioned d hd
  refine ⟨hle, ?_⟩
  intro keys values applied _ hget
  rw [Store.applied_of_multiGet hget]
  exact hle

/-- The actions of such a run, for runs that are evaluated. -/
def ReadSys.execCaughtUp (env : Env) (log : Nat → EntryType × Bytes) (timeout : Nat) (s : ReadSys) :
    ReadAction → Option ReadSys
  | .resolve leader now => if s.pipe.CaughtUp then s.execBlank env log timeout (.resolve leader now) else none
  | a => s.execBlank env log timeout a

theorem ReadSys.step_of_execCaughtUp (h : s.execCaughtUp env log timeout a = some s') :
    s.Step env log timeout a s' ∧ ∀ leader now, a = .resolve leader now → s.pipe.CaughtUp := by
  by_cases ha : ∃ leader now, a = .resolve leader now
  · obtain ⟨leader, now, rfl⟩ := ha
    obtain ⟨hcaught, hexec⟩ := Option.ite_none_right_eq_some.mp h
    exact ⟨ReadSys.step_of_execBlank hexec, fun _ _ _ => hcaught⟩
  · have hexec : s.execBlank env log timeout a = some s' := by
      cases a with
      | resolve leader now => exact absurd ⟨leader, now, rfl⟩ ha
      | _ => exact h
    exact ⟨ReadSys.step_of_execBlank hexec, fun leader now heq => absurd ⟨leader, now, heq⟩ ha⟩

/-- A read of one key is confirmed at index 2, where the log changes the membership. The change is made in the next
cycle, and its no-op handed over. -/
def readOverChange : List ReadAction :=
  [ .commit 2, .read (.many [[1]]) true 0,
    .pipe .absorb, .pipe (.poll none), .step none [blankEntry 1, ⟨2, .confChange, []⟩] [(0, 2)], .pipe .pump, .pipe .pump,
    .resolve true 0,
    .pipe .take, .pipe .work, .pipe .work,
    .pipe .absorb, .pipe (.poll none), .step none [] [], .pipe .pump, .pipe (.change true), .pipe .pump ]

/-- The task applies the no-op before the reads are resolved. -/
def resolvedLate : List ReadAction := readOverChange ++ [.pipe .take, .pipe .work, .resolve true 0]

/-- The reads are resolved first. -/
def resolvedEarly : List ReadAction := readOverChange ++ [.resolve true 0]

theorem read_version_reaches_overChange :
    ∃ s, CaughtUpRun addSeven changingLog 1 (ReadSys.start .new noMembers none 0) resolvedLate s ∧
      s.dispatched = [⟨.many [[1]], 2, 1, 2⟩] ∧ 2 ≤ s.pipe.task.sm.applied.toNat := by
  have heval : (resolvedLate.foldlM (ReadSys.execCaughtUp addSeven changingLog 1) (ReadSys.start .new noMembers none 0)).any
      (fun s => s.dispatched = [⟨.many [[1]], 2, 1, 2⟩]) := by
    decide +kernel
  obtain ⟨s, hs, hfacts⟩ := (Option.any_eq_true _ _).mp heval
  have hdispatched := of_decide_eq_true hfacts
  have hrun : CaughtUpRun addSeven changingLog 1 (ReadSys.start .new noMembers none 0) resolvedLate s :=
    .of_foldlM (fun _ _ _ => ReadSys.step_of_execCaughtUp) rfl hs
  have hread := read_version_reaches hrun ⟨.many [[1]], 2, 1, 2⟩ (hdispatched ▸ List.mem_cons_self)
  exact ⟨s, hrun, hdispatched, hread.1⟩

/-- **The alert fires.** If the reads are resolved first, the read is let through with index 2 while the state machine
is at 1, and that is the version `multi_get` returns. -/
theorem read_version_lags :
    ∃ s, ReadRun addSeven changingLog 1 (ReadSys.start .new noMembers none 0) resolvedEarly s ∧
      s.dispatched = [⟨.many [[1]], 2, 1, 2⟩] ∧ s.pipe.task.sm.applied = 1 ∧
      s.pipe.task.sm.multiGet [[1]] = some ([none], 1) := by
  have heval : (resolvedEarly.foldlM (ReadSys.execBlank addSeven changingLog 1) (ReadSys.start .new noMembers none 0)).any
      (fun s => s.dispatched = [⟨.many [[1]], 2, 1, 2⟩] ∧ s.pipe.task.sm.applied = 1 ∧
          s.pipe.task.sm.multiGet [[1]] = some ([none], 1)) := by
    decide +kernel
  obtain ⟨s, hs, hfacts⟩ := (Option.any_eq_true _ _).mp heval
  exact ⟨s, .of_foldlM (fun _ _ _ => ReadSys.step_of_execBlank) rfl hs, of_decide_eq_true hfacts⟩

end Arachne.Runtime.Pipeline
