import Arachne.Storage.Effects

/-! # Crashes

An operation of the store is a list of file-system calls, and a crash between two of them leaves the directory with
the calls made so far (`Op.crashDir`). Each operation is treated with `Passes P s s'`: calls take the store from `s`
to `s'`, and the directory meets `P` wherever one stops between them.

Most operations only touch segment files (`FsStep.OnSegments`), so that META, the membership file and the snapshot files are
the same wherever such an operation is cut short. A call that fails stops the process; the directory it leaves is also
the one a crash of a shorter call leaves, and it has no crash of its own here.

`CrashRun` is a run of completed calls and of calls cut short, each of these followed by an open. -/

namespace Arachne.Storage

open WalStorage
open Transition (Throughout)

/-- The calls an operation makes. -/
def Op.calls (opts : WalOptions) (s : WalStorage) (op : Op) : List FsStep :=
  match op.exec opts s with
  | .error _ => []
  | .ok s' =>
    match op with
    -- The journal of an opened store begins with the calls of the open.
    | .reopen _ => s'.journal
    | _ => s'.journal.drop s.journal.length

/-- The directory after a crash behind the first `k` calls of an operation. -/
def Op.crashDir (opts : WalOptions) (s : WalStorage) (op : Op) (k : Nat) : Dir :=
  FsStep.runAll s.dir ((op.calls opts s).take k)

/-- Calls that take a store to another one, with `P` true of the directory wherever one stops. -/
def Passes (P : Dir → Prop) (s s' : WalStorage) : Prop :=
  ∃ steps, s'.journal = s.journal ++ steps ∧ s'.dir = FsStep.runAll s.dir steps ∧ Throughout FsStep.run P s.dir steps

namespace Passes

variable {P : Dir → Prop} {s t s' : WalStorage}

theorem refl (h : P s.dir) : Passes P s s := ⟨[], (List.append_nil _).symm, rfl, .nil h⟩

theorem trans (h : Passes P s t) (h' : Passes P t s') : Passes P s s' := by
  obtain ⟨xs, hxs, hdir, hP⟩ := h
  obtain ⟨ys, hys, hdir', hP'⟩ := h'
  refine ⟨xs ++ ys, ?_, ?_, hP.append ?_⟩
  · rw [hys, hxs, List.append_assoc]
  · rw [hdir', hdir, FsStep.runAll_append]
  · rw [hdir] at hP'
    exact hP'

theorem io (s : WalStorage) {step : FsStep} (h : P s.dir) (h' : P (step.run s.dir)) : Passes P s (s.io step) :=
  ⟨[step], rfl, rfl, .cons h (.nil h')⟩

theorem ioAll (s : WalStorage) {steps : List FsStep} (h : Throughout FsStep.run P s.dir steps) :
    Passes P s (s.ioAll steps) := by
  rw [ioAll_eq]
  exact ⟨steps, rfl, rfl, h⟩

/-- What a store holds in memory does not matter. -/
theorem congr (h : Passes P s t) (hjournal : s'.journal = t.journal) (hdir : s'.dir = t.dir) : Passes P s s' := by
  obtain ⟨steps, hsteps, hrun, hP⟩ := h
  exact ⟨steps, hjournal.trans hsteps, hdir.trans hrun, hP⟩

theorem last (h : Passes P s s') : P s'.dir := by
  obtain ⟨steps, -, hdir, hP⟩ := h
  rw [hdir]
  exact hP.last

end Passes

/-- **A crash of an operation** leaves a directory it passes through. -/
theorem Op.crashDir_of_passes {P : Dir → Prop} {opts : WalOptions} {s s' : WalStorage} {op : Op}
    (hop : ∀ config, op ≠ .reopen config) (hok : op.exec opts s = .ok s') (h : Passes P s s') (k : Nat) :
    P (op.crashDir opts s k) := by
  obtain ⟨steps, hjournal, -, hP⟩ := h
  have hcalls : op.calls opts s = steps := by
    have hdrop : s'.journal.drop s.journal.length = steps := by rw [hjournal, List.drop_left]
    rw [Op.calls, hok]
    cases op with
    | reopen config => exact absurd rfl (hop config)
    | _ => exact hdrop
  rw [Op.crashDir, hcalls]
  exact hP k

/-- An operation that fails has no crash of its own. -/
theorem Op.crashDir_of_error {opts : WalOptions} {s : WalStorage} {op : Op} {e : StorageError}
    (herr : op.exec opts s = .error e) (k : Nat) : op.crashDir opts s k = s.dir := by
  rw [Op.crashDir, Op.calls, herr]
  exact congrArg (FsStep.runAll s.dir) List.take_nil

/-! ## Runs with crashes -/

/-- A completed call, or one that is cut short behind its first `k` file-system calls and followed by an open. -/
inductive Act where
  | call (op : Op)
  | crash (op : Op) (k : Nat) (config : WalConfig)
  deriving DecidableEq

def Act.op : Act → Op
  | .call op | .crash op _ _ => op

def Act.exec (opts : WalOptions) (s : WalStorage) : Act → Except StorageError WalStorage
  | .call op => op.exec opts s
  | .crash op k config => (openDir (op.crashDir opts s k) { opts with config }).2

/-- A run of calls and crashes in an empty directory, each meeting `ok` in the state it starts from. -/
def CrashRun (opts : WalOptions) (ok : WalStorage → Act → Prop) : List Act → WalStorage → Prop :=
  Transition.Run (fun s => (openDir .empty opts).2 = .ok s) fun s act s' => ok s act ∧ act.exec opts s = .ok s'

/-- Perform the acts in order in an empty directory, as long as each meets `ok` and succeeds. -/
def runActs (opts : WalOptions) (ok : WalStorage → Act → Prop) [∀ s act, Decidable (ok s act)] (acts : List Act) :
    Option WalStorage :=
  match (openDir .empty opts).2 with
  | .error _ => none
  | .ok s => acts.foldlM (fun s act => if ok s act then (act.exec opts s).toOption else none) s

theorem CrashRun.of_runActs {opts : WalOptions} {ok : WalStorage → Act → Prop} [∀ s act, Decidable (ok s act)]
    {acts : List Act} {s : WalStorage} (h : runActs opts ok acts = some s) : CrashRun opts ok acts s := by
  rw [runActs] at h
  split at h
  · cases h
  · next s₀ h₀ =>
      refine Transition.Run.of_foldlM (fun s act s' hs => ?_) h₀ h
      split_ifs at hs with hok
      exact ⟨hok, toOption_eq_some.mp hs⟩

/-! ## Operations on segments -/

/-- A call on a segment file. -/
def FsStep.OnSegments : FsStep → Prop
  | .createSegment _ | .appendSegment _ _ | .truncateSegment _ _ | .syncSegment _ | .removeSegment _ => True
  | _ => False

theorem FsStep.run_onSegments {step : FsStep} (h : step.OnSegments) (d : Dir) :
    ∃ segments, step.run d = { d with segments } := by
  cases step with
  | createSegment n => exact ⟨_, rfl⟩
  | appendSegment n bytes => exact ⟨_, rfl⟩
  | truncateSegment n offset => exact ⟨_, rfl⟩
  | syncSegment n => exact ⟨d.segments, rfl⟩
  | removeSegment n => exact ⟨_, rfl⟩
  | _ => exact h.elim

theorem FsStep.onSegments_removeAll (ns : List Nat) : ∀ step ∈ ns.map FsStep.removeSegment, step.OnSegments := by
  intro step hstep
  obtain ⟨n, -, rfl⟩ := List.mem_map.mp hstep
  trivial

theorem onSegments_replaceSteps (s : WalStorage) (snapshot : Snapshot) :
    ∀ step ∈ s.replaceSteps snapshot, step.OnSegments :=
  List.forall_mem_append.mpr ⟨FsStep.onSegments_removeAll _, List.forall_mem_singleton.mpr trivial⟩

theorem not_onSegments_saveSteps {s : WalStorage} {snapshot : Snapshot} {step : FsStep}
    (hstep : step ∈ s.saveSteps snapshot) : ¬ step.OnSegments := by
  rw [saveSteps] at hstep
  split_ifs at hstep
  · cases hstep
  · rcases List.mem_cons.mp hstep with rfl | hstep
    · exact not_false
    · rcases List.mem_cons.mp hstep with rfl | hstep
      · exact not_false
      · obtain ⟨f, -, rfl⟩ := List.mem_map.mp hstep
        exact not_false

/-- A call of `append` behind what it cuts off: entries are written, to the active segment or a new one. -/
def FsStep.WritesEntry : FsStep → Prop
  | .createSegment _ | .syncSegment _ => True
  | .appendSegment _ bytes => ∃ e : LogEntry, e.Fits ∧ bytes = (Record.entry e).encode
  | _ => False

theorem FsStep.WritesEntry.onSegments {step : FsStep} (h : step.WritesEntry) : step.OnSegments := by
  cases step with
  | createSegment n => trivial
  | appendSegment n bytes => trivial
  | syncSegment n => trivial
  | _ => exact h.elim

section Writing

variable {P : Dir → Prop} (hP : ∀ d (step : FsStep), step.WritesEntry → P d → P (step.run d)) {s s' : WalStorage}

include hP

theorem passes_write (hs : P s.dir) (step : FsStep) (h : step.WritesEntry) : Passes P s (s.io step) :=
  .io s hs (hP _ _ h hs)

theorem passes_maybeRollover (hs : P s.dir) (n : Nat) : Passes P s (s.maybeRollover n) := by
  rw [WalStorage.maybeRollover]
  split_ifs
  · have hsync := passes_write hP hs (.syncSegment s.segmentFirstIndex) trivial
    exact hsync.trans ((passes_write hP hsync.last (.createSegment n) trivial).congr rfl rfl)
  · exact (passes_write hP hs (.createSegment n) trivial).congr rfl rfl
  · exact .refl hs

theorem passes_appendEntry (hs : P s.dir) {e : LogEntry} (hok : s.appendEntry e = .ok s') : Passes P s s' := by
  obtain ⟨-, hfits, rfl⟩ := appendEntry_eq_ok.mp hok
  have hroll := passes_maybeRollover hP hs e.index.toNat
  exact hroll.trans ((passes_write hP hroll.last (.appendSegment _ _) ⟨e, hfits, rfl⟩).congr rfl rfl)

theorem passes_appendAll (hs : P s.dir) {es : List LogEntry} (hok : es.foldlM appendEntry s = .ok s') :
    Passes P s s' := by
  induction hok using Transition.foldlM_induction with
  | nil => exact .refl hs
  | cons ht _ ih =>
      have hentry := passes_appendEntry hP hs ht
      exact hentry.trans (ih hentry.last)

theorem passes_syncEntries (hs : P s.dir) : Passes P s s.syncEntries := by
  have hsync := passes_write hP hs (.syncSegment s.segmentFirstIndex) trivial
  rw [WalStorage.syncEntries]
  split
  · exact hsync.congr rfl rfl
  · split_ifs
    · exact hsync.congr rfl rfl
    · exact .refl hs

end Writing

/-- **`append`** is a cut, or nothing, and then the loop. -/
theorem append_eq_ok {s s' : WalStorage} {es : List LogEntry} (hok : s.append es = .ok s') :
    ∃ t, (t = s ∨ ∃ keep, t = (s.truncateLogTo keep).1) ∧ es.foldlM appendEntry t = .ok s' := by
  cases es with
  | nil => exact ⟨s, .inl rfl, hok⟩
  | cons first es =>
      obtain ⟨t, ht, hloop⟩ := Transition.bind_eq_ok.mp hok
      refine ⟨t, ?_, hloop⟩
      by_cases hle : first.index.toNat ≤ s.lastIndex
      · exact .inr ⟨_, ((overwriteSuffix_eq_ok hle).mp ht).2.2⟩
      · rw [overwriteSuffix_of_gt (Nat.not_le.mp hle)] at ht
        exact .inl (Except.ok.inj ht).symm

/-- An operation that makes calls on segment files only. -/
def Op.OnSegments : Op → Prop
  | .append _ | .setHardState _ | .syncEntries | .compact _ | .setTrailingKeepBytes _ => True
  | _ => False

section Segments

variable {P : Dir → Prop} (hP : ∀ d segments, P d → P { d with segments }) {s s' : WalStorage}

include hP

theorem run_onSegments {step : FsStep} (h : step.OnSegments) {d : Dir} (hd : P d) : P (step.run d) := by
  obtain ⟨segments, hrun⟩ := FsStep.run_onSegments h d
  rw [hrun]
  exact hP d segments hd

theorem run_writesEntry (d : Dir) (step : FsStep) (h : step.WritesEntry) (hd : P d) : P (step.run d) :=
  run_onSegments hP h.onSegments hd

theorem throughout_onSegments {d : Dir} {steps : List FsStep} (hd : P d) (h : ∀ step ∈ steps, step.OnSegments) :
    Throughout FsStep.run P d steps :=
  .of_kept hd fun step hstep _ hd => run_onSegments hP (h step hstep) hd

theorem passes_io (hs : P s.dir) (step : FsStep) (h : step.OnSegments) : Passes P s (s.io step) :=
  .io s hs (run_onSegments hP h hs)

theorem passes_truncateLogTo (hs : P s.dir) (keep : Nat) : Passes P s (s.truncateLogTo keep).1 := by
  simp only [truncateLogTo]
  split_ifs
  · exact .refl hs
  · split
    · next first offset _ =>
        refine (Passes.ioAll s (throughout_onSegments hP hs ?_)).congr rfl rfl
        rw [List.forall_mem_cons, List.forall_mem_cons]
        exact ⟨trivial, trivial, FsStep.onSegments_removeAll _⟩
    · refine (Passes.ioAll s (throughout_onSegments hP hs ?_)).congr rfl rfl
      exact List.forall_mem_append.mpr ⟨FsStep.onSegments_removeAll _, List.forall_mem_singleton.mpr trivial⟩

theorem passes_append (hs : P s.dir) {es : List LogEntry} (hok : s.append es = .ok s') : Passes P s s' := by
  obtain ⟨t, hstart, hloop⟩ := append_eq_ok hok
  have hcut : Passes P s t := by
    rcases hstart with rfl | ⟨keep, rfl⟩
    · exact .refl hs
    · exact passes_truncateLogTo hP hs keep
  exact hcut.trans (passes_appendAll (run_writesEntry hP) hcut.last hloop)

theorem passes_setHardState (hs : P s.dir) (hard : HardState) : Passes P s (s.setHardState hard) := by
  refine (Passes.ioAll s (throughout_onSegments hP hs ?_)).congr rfl rfl
  exact List.forall_mem_cons.mpr ⟨trivial, List.forall_mem_singleton.mpr trivial⟩

theorem passes_compactTrailing (indices : List Nat) (compactTo : Nat) (ws : List (Nat × Nat)) (effective : Nat)
    (hs : P s.dir) : Passes P s (compactTrailing indices compactTo ws s effective).1 := by
  induction ws generalizing s effective with
  | nil => exact .refl hs
  | cons w ws ih =>
      rw [compactTrailing]
      split_ifs
      · exact .refl hs
      · exact ih effective hs
      · exact .refl hs
      · have hremove := passes_io hP hs (.removeSegment w.1) trivial
        exact hremove.trans (ih _ hremove.last)

theorem passes_compact (hs : P s.dir) {compactTo : Nat} (hok : s.compact compactTo = .ok s') : Passes P s s' := by
  rcases compact_eq_ok hok with ⟨-, rfl⟩ | ⟨-, -, -, ⟨-, rfl⟩ | ⟨-, rfl⟩⟩
  · exact .refl hs
  · refine (Passes.ioAll s (throughout_onSegments hP hs ?_)).congr rfl rfl
    intro step hstep
    obtain ⟨w, -, rfl⟩ := List.mem_map.mp hstep
    trivial
  · exact (passes_compactTrailing hP _ _ _ _ hs).congr rfl rfl

theorem passes_exec {opts : WalOptions} {op : Op} (hs : P s.dir) (hop : op.OnSegments) (hok : op.exec opts s = .ok s') :
    Passes P s s' := by
  cases op with
  | append es => exact passes_append hP hs hok
  | setHardState hard =>
      obtain rfl := Except.ok.inj hok
      exact passes_setHardState hP hs hard
  | syncEntries =>
      obtain rfl := Except.ok.inj hok
      exact passes_syncEntries (run_writesEntry hP) hs
  | compact compactTo => exact passes_compact hP hs hok
  | setTrailingKeepBytes bytes =>
      obtain rfl := Except.ok.inj hok
      exact (Passes.refl hs).congr rfl rfl
  | _ => exact hop.elim

omit hP in
theorem Op.calls_installSnapshot {opts : WalOptions} {snapshot : Snapshot} (hok : s.installSnapshot snapshot = .ok s') :
    (Op.installSnapshot snapshot).calls opts s = [] ∨
      (Op.installSnapshot snapshot).calls opts s = s.saveSteps snapshot ++ s.replaceSteps snapshot := by
  have hcalls : (Op.installSnapshot snapshot).calls opts s = s'.journal.drop s.journal.length := by
    have hexec : (Op.installSnapshot snapshot).exec opts s = .ok s' := hok
    rw [Op.calls, hexec]
  rw [hcalls]
  rcases installSnapshot_eq_ok hok with ⟨-, -, rfl⟩ | ⟨-, rfl⟩
  · exact .inl (List.drop_length)
  · exact .inr List.drop_left

omit hP in
theorem passes_saveSnapshot {snapshot : Snapshot} (h : Throughout FsStep.run P s.dir (s.saveSteps snapshot)) :
    Passes P s (s.saveSnapshot snapshot) := by
  obtain ⟨_, _, hsave⟩ := s.saveSnapshot_eq snapshot
  rw [hsave]
  exact ⟨_, rfl, rfl, h⟩

/-- An installed snapshot is saved, and then the segments are replaced. -/
theorem passes_installSnapshot {snapshot : Snapshot} (hok : s.installSnapshot snapshot = .ok s')
    (hsave : Throughout FsStep.run P s.dir (s.saveSteps snapshot)) : Passes P s s' := by
  rcases installSnapshot_eq_ok hok with ⟨-, -, rfl⟩ | ⟨-, rfl⟩
  · exact .refl (hsave 0)
  · exact ⟨_, rfl, rfl, hsave.append (throughout_onSegments hP hsave.last (onSegments_replaceSteps s snapshot))⟩

end Segments

/-- What operations on segments leave alone in memory, apart from setting the hard state. -/
structure Framed (s s' : WalStorage) : Prop where
  metaRecord_eq : s'.metaRecord = s.metaRecord
  snapshot_eq : s'.snapshot = s.snapshot
  hardState_eq : s'.hardState = s.hardState
  confState_eq : s'.confState = s.confState
  confChangeIndex_eq : s'.confChangeIndex = s.confChangeIndex

namespace Framed

variable {s t s' : WalStorage}

theorem refl (s : WalStorage) : Framed s s := ⟨rfl, rfl, rfl, rfl, rfl⟩

theorem trans (h : Framed s t) (h' : Framed t s') : Framed s s' :=
  ⟨h'.metaRecord_eq.trans h.metaRecord_eq, h'.snapshot_eq.trans h.snapshot_eq, h'.hardState_eq.trans h.hardState_eq,
    h'.confState_eq.trans h.confState_eq, h'.confChangeIndex_eq.trans h.confChangeIndex_eq⟩

theorem appendEntry {e : LogEntry} (hok : s.appendEntry e = .ok s') : Framed s s' := by
  obtain ⟨-, -, rfl⟩ := appendEntry_eq_ok.mp hok
  rcases s.maybeRollover_eq e.index.toNat with hroll | ⟨_, _, _, hroll⟩
  · rw [hroll]
    exact ⟨rfl, rfl, rfl, rfl, rfl⟩
  · rw [hroll]
    exact ⟨rfl, rfl, rfl, rfl, rfl⟩

theorem appendAll {es : List LogEntry} (hok : es.foldlM WalStorage.appendEntry s = .ok s') : Framed s s' := by
  induction hok using Transition.foldlM_induction with
  | nil => exact .refl s'
  | cons ht _ ih => exact (appendEntry ht).trans ih

theorem truncateLogTo (s : WalStorage) (keep : Nat) : Framed s (s.truncateLogTo keep).1 := by
  simp only [WalStorage.truncateLogTo, ioAll_eq]
  split_ifs
  · exact .refl s
  · split
    · exact ⟨rfl, rfl, rfl, rfl, rfl⟩
    · exact ⟨rfl, rfl, rfl, rfl, rfl⟩

theorem append {es : List LogEntry} (hok : s.append es = .ok s') : Framed s s' := by
  obtain ⟨t, hstart, hloop⟩ := append_eq_ok hok
  refine trans ?_ (appendAll hloop)
  rcases hstart with rfl | ⟨keep, rfl⟩
  · exact .refl _
  · exact truncateLogTo s keep

theorem compactTrailing (indices : List Nat) (compactTo : Nat) (ws : List (Nat × Nat)) (s : WalStorage)
    (effective : Nat) : Framed s (WalStorage.compactTrailing indices compactTo ws s effective).1 := by
  induction ws generalizing s effective with
  | nil => exact .refl s
  | cons w ws ih =>
      rw [WalStorage.compactTrailing]
      split_ifs
      · exact .refl s
      · exact ih s effective
      · exact .refl s
      · have hremove : Framed s (s.io (.removeSegment w.1)) := ⟨rfl, rfl, rfl, rfl, rfl⟩
        exact hremove.trans (ih _ (w.2 - 1))

theorem compact {compactTo : Nat} (hok : s.compact compactTo = .ok s') : Framed s s' := by
  rcases compact_eq_ok hok with ⟨-, rfl⟩ | ⟨-, -, -, ⟨-, rfl⟩ | ⟨-, rfl⟩⟩
  · exact .refl _
  · rw [compactWhole, deleteSegmentsBelow, ioAll_eq]
    exact ⟨rfl, rfl, rfl, rfl, rfl⟩
  · exact (compactTrailing _ compactTo _ s s.compactedTo).trans ⟨rfl, rfl, rfl, rfl, rfl⟩

/-- **Operations on segments** change none of this, but for the hard state if they set it. -/
theorem exec {opts : WalOptions} {op : Op} (hop : op.OnSegments) (hok : op.exec opts s = .ok s') :
    Framed { s with hardState := op.hardState?.getD s.hardState } s' := by
  cases op with
  | append es => exact append hok
  | setHardState hard =>
      obtain rfl := Except.ok.inj hok
      rw [WalStorage.setHardState, ioAll_eq]
      exact ⟨rfl, rfl, rfl, rfl, rfl⟩
  | syncEntries =>
      obtain rfl := Except.ok.inj hok
      obtain ⟨_, _, _, hsync⟩ := s.syncEntries_eq
      rw [hsync]
      exact ⟨rfl, rfl, rfl, rfl, rfl⟩
  | compact compactTo => exact compact hok
  | setTrailingKeepBytes bytes =>
      obtain rfl := Except.ok.inj hok
      exact ⟨rfl, rfl, rfl, rfl, rfl⟩
  | _ => exact hop.elim

end Framed

/-! ## Opening -/

namespace WalStorage

variable {idx compactedTo : Nat} {isLast : Bool} {acc acc' : Recovered}

theorem steps_replayRecord {offset : Nat} {bytes : Codec.Bytes} (hok : replayRecord idx offset bytes acc = .ok acc') :
    acc'.steps = acc.steps := by
  rw [replayRecord] at hok
  split at hok
  · split at hok
    · obtain rfl := Except.ok.inj hok
      rfl
    · cases hok
  · split at hok
    · obtain rfl := Except.ok.inj hok
      rfl
    · cases hok
  · cases hok
  · cases hok

/-- Replay makes calls on segments only: it cuts torn tails off. -/
theorem onSegments_replaySegment {n offset : Nat} {rest : Codec.Bytes} (h : ∀ step ∈ acc.steps, step.OnSegments)
    (hok : replaySegment idx isLast compactedTo n offset rest acc = .ok acc') : ∀ step ∈ acc'.steps, step.OnSegments := by
  induction n generalizing offset rest acc with
  | zero =>
      obtain rfl := Except.ok.inj hok
      exact h
  | succ n ih =>
      rw [replaySegment] at hok
      split_ifs at hok
      · obtain rfl := Except.ok.inj hok
        exact h
      · simp only [replayTear] at hok
        split_ifs at hok
        obtain rfl := Except.ok.inj hok
        exact List.forall_mem_append.mpr ⟨h, List.forall_mem_singleton.mpr trivial⟩
      · dsimp only at hok
        split at hok
        · cases hok
        · next acc₁ hrecord =>
            refine ih ?_ hok
            rw [steps_replayRecord hrecord]
            exact h

theorem onSegments_replaySegments {segs : List (Nat × Codec.Bytes)} (h : ∀ step ∈ acc.steps, step.OnSegments)
    (hok : replaySegments compactedTo segs acc = .ok acc') : ∀ step ∈ acc'.steps, step.OnSegments := by
  induction segs generalizing acc with
  | nil =>
      obtain rfl := Except.ok.inj hok
      exact h
  | cons seg segs ih =>
      obtain ⟨idx, raw⟩ := seg
      rw [replaySegments] at hok
      split at hok
      · cases hok
      · next acc₁ hseg => exact ih (onSegments_replaySegment h hseg) hok

theorem runAll_onSegments {steps : List FsStep} (h : ∀ step ∈ steps, step.OnSegments) (d : Dir) :
    ∃ segments, FsStep.runAll d steps = { d with segments } := by
  have hall := throughout_onSegments (P := fun d' => ∃ segments, d' = { d with segments })
    (by rintro _ segments ⟨_, rfl⟩; exact ⟨segments, rfl⟩) ⟨d.segments, rfl⟩ h
  exact hall.last

/-- Which member table `open` reports, and up to which index it is valid. -/
def recoveredMembership (membership : Option (UInt64 × ConfState)) (compactedTo : Nat) : Nat × ConfState :=
  match membership with
  | some (index, confState) => if index.toNat > compactedTo then (index.toNat, confState) else (compactedTo, .default)
  | none => (compactedTo, .default)

/-- What loads comes from a file at or below the index asked for, labelled with the snapshot's index. -/
theorem newestValid_eq_some {files : List SnapshotFile} {index : UInt64} {snapshot : Snapshot}
    (h : newestValid files index = some snapshot) :
    ∃ f ∈ files, f.index ≤ index ∧ SnapshotFile.valid? f = some snapshot ∧ snapshot.metadata.index = f.index := by
  obtain ⟨f, hf, hvalid⟩ := List.exists_of_findSome?_eq_some h
  obtain ⟨hmem, hle⟩ := List.mem_filter.mp hf
  refine ⟨f, hmem, of_decide_eq_true hle, hvalid, ?_⟩
  rw [SnapshotFile.valid?, Option.filter_eq_some_iff] at hvalid
  exact of_decide_eq_true hvalid.2

theorem watermark_load_le (d : Dir) (index : UInt64) : watermark (loadSnapshot d index) ≤ index.toNat := by
  rw [loadSnapshot]
  split_ifs
  · exact Nat.zero_le _
  · cases hload : newestValid d.snapshots index with
    | none => exact Nat.zero_le _
    | some snapshot =>
        obtain ⟨f, -, hle, -, hlabel⟩ := newestValid_eq_some hload
        show snapshot.metadata.index.toNat ≤ index.toNat
        rw [hlabel]
        exact UInt64.le_iff_toNat_le.mp hle

/-- What an opened store has from its directory. -/
structure OpenedFrom (dir : Dir) (t : WalStorage) : Prop where
  metaFile_eq : t.dir.metaFile = some t.metaRecord
  metaRecord_eq : ∀ m ∈ dir.metaFile, t.metaRecord = m
  fresh : dir.metaFile = none → t.metaRecord.snapshotIndex = 0
  snapshots_eq : t.dir.snapshots = dir.snapshots
  membership_eq : t.dir.membership = dir.membership
  snapshot_eq : t.snapshot = loadSnapshot dir t.metaRecord.snapshotIndex
  compactedTo_eq : t.compactedTo = watermark t.snapshot
  replayed : ∃ recovered, recoverWal dir t.compactedTo = .ok recovered ∧ t.hardState = recovered.hardState ∧
    checkRecovered t.metaRecord t.snapshot t.compactedTo recovered = .ok t.entries
  conf_eq : (t.confChangeIndex, t.confState) = recoveredMembership dir.membership t.compactedTo
  dir_eq : t.dir = FsStep.runAll dir t.journal
  calls : ∀ step ∈ t.journal, step.OnSegments ∨ dir.metaFile = none ∧ step = .writeMeta t.metaRecord

/-- The membership file is used if it is newer than the snapshot. -/
theorem OpenedFrom.membership_cases {dir : Dir} {t : WalStorage} (h : OpenedFrom dir t) :
    (∃ index, dir.membership = some (index, t.confState) ∧ t.confChangeIndex = index.toNat ∧
      t.compactedTo < t.confChangeIndex) ∨
    t.confChangeIndex = t.compactedTo ∧ t.confState = .default := by
  have hconf := h.conf_eq
  unfold recoveredMembership at hconf
  split at hconf
  · next index confState hfile =>
      split_ifs at hconf with hnewer
      · obtain ⟨hindex, rfl⟩ := Prod.mk.inj hconf
        exact .inl ⟨index, hfile, hindex, hindex ▸ hnewer⟩
      · exact .inr (Prod.mk.inj hconf)
  · exact .inr (Prod.mk.inj hconf)

/-- META is there afterwards, and only written if it was not. -/
theorem recoverMeta_eq_ok {dir : Dir} {opts : WalOptions} {steps : List FsStep} {m : Meta}
    (h : recoverMeta dir opts = (steps, .ok m)) :
    (∀ m' ∈ dir.metaFile, m = m') ∧ (dir.metaFile = none → m.snapshotIndex = 0) ∧
      FsStep.runAll dir steps = { dir with metaFile := some m } ∧
      ∀ step ∈ steps, dir.metaFile = none ∧ step = .writeMeta m := by
  rw [recoverMeta] at h
  split at h
  · next metaRecord hmeta =>
      split_ifs at h
      all_goals obtain ⟨rfl, hm⟩ := Prod.mk.inj h
      · cases hm
      · cases hm
      · cases hm
      · obtain rfl := Except.ok.inj hm
        refine ⟨?_, ?_, ?_, fun step hstep => absurd hstep List.not_mem_nil⟩
        · intro m' hm'
          exact Option.some.inj (hmeta.symm.trans hm')
        · intro hnone
          rw [hmeta] at hnone
          cases hnone
        · rw [← hmeta]
          rfl
  · next hmeta =>
      obtain ⟨rfl, hm⟩ := Prod.mk.inj h
      obtain rfl := Except.ok.inj hm
      refine ⟨?_, fun _ => rfl, rfl, List.forall_mem_singleton.mpr ⟨hmeta, rfl⟩⟩
      intro m' hm'
      rw [hmeta] at hm'
      cases hm'

/-- A directory without segments gets the first one. -/
theorem onSegments_createFirst (d : Dir) :
    ∀ step ∈ (if d.listSegmentIndices = [] then [FsStep.createSegment 1] else []), step.OnSegments := by
  split_ifs
  · exact List.forall_mem_singleton.mpr trivial
  · exact fun step hstep => absurd hstep List.not_mem_nil

/-- **What `open` takes from the directory**, whatever the directory holds. -/
theorem openedFrom {dir : Dir} {opts : WalOptions} {t : WalStorage} (h : (openDir dir opts).2 = .ok t) :
    OpenedFrom dir t := by
  rw [openDir] at h
  split at h
  · cases h
  · next steps m hmeta =>
      obtain ⟨hsame, hfresh, hdir₁, hcalls⟩ := recoverMeta_eq_ok hmeta
      dsimp only at h
      split at h
      · cases h
      · next recovered hwal =>
          split at h
          · cases h
          · next entries hcheck =>
              obtain rfl := Except.ok.inj h
              -- after META, all calls are on segments, so that the other files are those of `dir`
              have hrec : ∀ step ∈ recovered.steps, step.OnSegments :=
                onSegments_replaySegments (fun step hstep => absurd hstep List.not_mem_nil) hwal
              obtain ⟨segments, hdir₂⟩ := runAll_onSegments hrec (FsStep.runAll dir steps)
              have hcreate := onSegments_createFirst (FsStep.runAll (FsStep.runAll dir steps) recovered.steps)
              obtain ⟨segments', hdir₃⟩ := runAll_onSegments hcreate _
              have hdir : (assemble opts (FsStep.runAll (FsStep.runAll dir steps) recovered.steps)
                  (steps ++ recovered.steps) m (loadSnapshot (FsStep.runAll dir steps) m.snapshotIndex) recovered
                  entries).dir = { dir with metaFile := some m, segments := segments' } := by
                refine hdir₃.trans ?_
                rw [hdir₂, hdir₁]
              have hreplay : recoverWal dir (watermark (loadSnapshot (FsStep.runAll dir steps) m.snapshotIndex)) =
                  .ok recovered := by
                rw [← hwal, recoverWal, recoverWal, hdir₁]
              refine ⟨?_, hsame, hfresh, ?_, ?_, ?_, rfl, ⟨recovered, hreplay, rfl, hcheck⟩, ?_, ?_, ?_⟩
              · rw [hdir]; rfl
              · rw [hdir]
              · rw [hdir]
              · show loadSnapshot (FsStep.runAll dir steps) m.snapshotIndex = loadSnapshot dir m.snapshotIndex
                rw [hdir₁]
                rfl
              · show (Prod.fst _, Prod.snd _) = recoveredMembership dir.membership _
                rw [hdir₂, hdir₁]
                rfl
              · show FsStep.runAll _ (if _ then _ else _) = FsStep.runAll dir (_ ++ (if _ then _ else _))
                rw [FsStep.runAll_append, FsStep.runAll_append]
              · intro step hstep
                rcases List.mem_append.mp hstep with hstep | hstep
                · rcases List.mem_append.mp hstep with hstep | hstep
                  · exact .inr (hcalls step hstep)
                  · exact .inl (hrec step hstep)
                · exact .inl (hcreate step hstep)

end WalStorage

end Arachne.Storage
