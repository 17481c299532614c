import Arachne.Runtime.LogStore

/-! # Replicas of one log

The nodes of a cluster run their pipelines side by side over one committed log. A snapshot that one of them takes is
installed by others, which have it from the leader, and is what a node starts with again (`Runtime::new`). So the bytes of
a snapshot are of the store they were taken of, wherever that got its own content from. -/

namespace Arachne.Runtime.Pipeline

open Codec (Bytes)
open StateMachine (Store KvError decodeStore)
open Storage (EntryType Snapshot)

/-- The nodes, and all snapshots that any of them has taken. -/
structure Fleet (N : Type) where
  node : N → Sys
  taken : List Snapshot

inductive FleetAction (N : Type) where
  | act (n : N) (a : Action)
  /-- The process starts again, with a snapshot if its storage has one. -/
  | restart (n : N) (snapshot : Option Snapshot) (membership : Membership) (clock : Option Nat)

namespace Fleet

variable {N : Type} [DecidableEq N] {env : N → Env} {log : Nat → EntryType × Bytes} {F F' : Fleet N} {n : N} {a : Action}

def put (F : Fleet N) (n : N) (s : Sys) : Fleet N where
  node := Function.update F.node n s
  taken := s.history.created ++ F.taken

/-- What raft delivers to a node: a snapshot that some node has taken, and the entries of the log behind it. -/
def Delivers (log : Nat → EntryType × Bytes) (F : Fleet N) (n : N) : Action → Prop
  | .deliver snapshot entries =>
    (∀ snap ∈ snapshot, snap ∈ F.taken ∧ (F.node n).history.delivered ≤ snap.metadata.index.toNat) ∧
      Consecutive log (snapshot.elim (F.node n).history.delivered fun snap => snap.metadata.index.toNat) entries
  | _ => True

instance : Decidable (F.Delivers log n a) :=
  match a with
  | .deliver _ _ => inferInstanceAs (Decidable (_ ∧ _))
  | .serve _ _ _ | .absorb | .poll _ | .install | .pump | .change _ | .finish | .halt | .take | .work | .close =>
    .isTrue trivial

/-- The state machine of a process that starts; `none` is a start that fails. -/
def startingStore : Option Snapshot → Option Store
  | none => some .new
  | some snapshot =>
    match Store.new.restore snapshot.data with
    | (.ok (), sm) => some sm
    | (.error _, _) => none

def exec (env : N → Env) (log : Nat → EntryType × Bytes) (F : Fleet N) : FleetAction N → Option (Fleet N)
  | .act n a => if F.Delivers log n a then ((F.node n).exec (env n) a).map (F.put n) else none
  | .restart n snapshot membership clock =>
    if ∀ snap ∈ snapshot, snap ∈ F.taken then
      (startingStore snapshot).map fun sm => F.put n (Sys.start sm membership clock)
    else none

def start (membership : N → Membership) (clock : N → Option Nat) : Fleet N where
  node n := Sys.start .new (membership n) (clock n)
  taken := []

/-! ## Snapshots of the log -/

/-- The bytes are what the log's store at this index is written as. -/
def OfLog (log : Nat → EntryType × Bytes) (index : UInt64) (data : Bytes) : Prop :=
  (logStore log index.toNat).applied = index ∧ data = (logStore log index.toNat).snapshot

/-- The stores of the log can be counted in a snapshot. -/
def Countable (log : Nat → EntryType × Bytes) : Prop :=
  ∀ i, (logStore log i).kv.size < 2 ^ 32 ∧ (logStore log i).sessions.size < 2 ^ 32

theorem OfLog.decode (hlog : Countable log) {index : UInt64} {data : Bytes} (h : OfLog log index data) :
    decodeStore data = .ok (logStore log index.toNat) := by
  rw [h.2]
  exact (StateMachine.reads_snapshot (Store.Reachable.fits ⟨_, rfl⟩) (hlog _).1 (hlog _).2).parse _

/-- What a step can do to the local snapshots: answer a request by what the state machine is, and collect an answer. -/
structure Honest (s s' : Sys) : Prop where
  answered : ∀ answer ∈ s'.actor.snapshotWait.join,
    answer ∈ s.actor.snapshotWait.join ∨ answer = (s.task.sm.applied, s.task.sm.snapshot)
  created : ∀ snap ∈ s'.history.created,
    snap ∈ s.history.created ∨ (snap.metadata.index, snap.data) ∈ s.actor.snapshotWait.join

theorem Honest.of_same {s s' : Sys} (hwait : s'.actor.snapshotWait = s.actor.snapshotWait)
    (hcreated : s'.history.created = s.history.created) : Honest s s' := by
  constructor
  · rw [hwait]
    exact fun _ => .inl
  · rw [hcreated]
    exact fun _ => .inl

theorem Honest.orStop {env : Env} {s popped : Sys} (snapshot : Option Snapshot) (entries : List (UInt64 × Bytes))
    (phase : Phase) (hwait : popped.actor.snapshotWait = s.actor.snapshotWait)
    (hcreated : popped.history.created = s.history.created) :
    Honest s (s.orStop phase (popped.enqueueApply env snapshot entries)) := by
  rcases Sys.orStop_enqueueApply env s popped snapshot entries phase with
    heq | ⟨book, deferred, channel, handOver, heq, -, -⟩ <;> rw [heq]
  · exact .of_same rfl rfl
  · exact .of_same hwait hcreated

theorem honest_of_moves {env : Env} {s s' : Sys} (h : s.Moves env a s') : Honest s s' := by
  cases h with
  | @poll term hphase =>
      rcases s.pollSnapshot_cases term with heq | heq | ⟨index, data, saved, hwait, -, heq⟩ <;> rw [heq]
      · exact .of_same rfl rfl
      · exact .of_same rfl rfl
      · refine ⟨fun _ h => (by cases h), fun snap hsnap => ?_⟩
        rcases List.mem_cons.mp hsnap with rfl | hsnap
        · rw [hwait]
          exact .inr rfl
        · exact .inl hsnap
  | install hphase => exact .orStop _ _ _ rfl rfl
  | pump hphase =>
      unfold Sys.pumpCommitted
      split
      · exact .of_same rfl rfl
      · split_ifs
        · exact .orStop _ _ _ rfl rfl
        · exact .of_same rfl rfl
        · exact .orStop _ _ _ rfl rfl
  | change hphase hrunning =>
      simp only [Sys.changeMembership]
      split <;> exact .of_same rfl rfl
  | finish hphase =>
      rcases s.maybeSnapshot_cases env with heq | heq | heq <;> rw [heq]
      · exact .of_same rfl rfl
      · exact .of_same rfl rfl
      · exact ⟨fun _ h => (by cases h), fun _ => .inl⟩
  | take hfailed hworking htake =>
      rcases Sys.takeRequest_eq_some htake with ⟨batch, rest, -, rfl⟩ | ⟨rest, -, rfl⟩
      · exact .of_same rfl rfl
      · exact ⟨fun answer hanswer => .inr (Option.some.inj hanswer).symm, fun _ => .inl⟩
  | @work batch hfailed hworking =>
      obtain ⟨hactor, hhistory, -, -⟩ := s.work_frame batch
      exact .of_same (by rw [hactor]) (by rw [hhistory])
  | _ => exact .of_same rfl rfl

/-! ## A node -/

/-- Everything a node has, and has taken, is of the log. -/
structure Faithful (log : Nat → EntryType × Bytes) (s : Sys) : Prop where
  ordered : ∃ start, s.Ordered log start
  reflects : s.Reflects log
  waiting : s.AllSnapshots fun snap => OfLog log snap.metadata.index snap.data
  answered : ∀ answer ∈ s.actor.snapshotWait.join, OfLog log answer.1 answer.2
  created : ∀ snap ∈ s.history.created, OfLog log snap.metadata.index snap.data
  restored : ∀ index e, s.task.failed ≠ some (.restore index e)

theorem faithful_start {sm : Store} (hsm : sm = logStore log sm.applied.toNat) (membership : Membership)
    (clock : Option Nat) : Faithful log (Sys.start sm membership clock) := by
  refine ⟨⟨_, ordered_start log sm membership clock⟩, reflects_start hsm membership clock, ⟨fun batch hb => ?_, nofun⟩,
    nofun, nofun, nofun⟩
  rcases hb with hb | hb | hb <;> cases hb

/-- A snapshot of the log does not fail to be restored. -/
theorem Faithful.work {s : Sys} (h : Faithful log s) (hlog : Countable log) {batch : ApplyBatch}
    (hworking : s.task.working = some batch) (index : UInt64) (e : KvError) :
    (s.work batch).task.failed ≠ some (.restore index e) := by
  fun_cases Sys.work s batch with
  | case1 snapshot entries e' sm hrestore =>
      have hdecode := (h.waiting.holds _ (.inl hworking) snapshot rfl).decode hlog
      rw [Store.restore_eq, hdecode] at hrestore
      cases hrestore
  | case3 => exact fun h => by cases h
  | _ => exact h.restored index e

theorem Faithful.step {env : Env} {s s' : Sys} (h : Faithful log s) (hlog : Countable log) (hstep : s.Step env log a s')
    (hof : ∀ snapshot entries, a = .deliver snapshot entries → ∀ snap ∈ snapshot, OfLog log snap.metadata.index snap.data) :
    Faithful log s' := by
  have hmoves := Sys.moves_of_exec hstep.1
  have hhonest := honest_of_moves hmoves
  obtain ⟨start, hordered⟩ := h.ordered
  refine ⟨⟨start, hordered.step hstep⟩, h.reflects.step hordered hstep ?_, h.waiting.step hmoves hof, ?_, ?_, ?_⟩
  · intro snapshot entries ha snap hsnap st hst
    exact Except.ok.inj (hst.symm.trans ((hof snapshot entries ha snap hsnap).decode hlog))
  · intro answer hanswer
    rcases hhonest.answered answer hanswer with hold | rfl
    · exact h.answered answer hold
    · exact ⟨by rw [← h.reflects.sm], congrArg Store.snapshot h.reflects.sm⟩
  · intro snap hsnap
    exact (hhonest.created snap hsnap).elim (h.created snap) (h.answered _)
  · by_cases ha : a = .work
    · subst ha
      cases hmoves with
      | work hfailed hworking => exact h.work hlog hworking
    · rw [(hmoves.frame ha).2.1]
      exact h.restored

/-! ## The cluster -/

structure Agrees (log : Nat → EntryType × Bytes) (F : Fleet N) : Prop where
  node (n : N) : Faithful log (F.node n)
  taken : ∀ snap ∈ F.taken, OfLog log snap.metadata.index snap.data

theorem Agrees.put (h : F.Agrees log) {s : Sys} (hs : Faithful log s) : (F.put n s).Agrees log := by
  refine ⟨fun m => ?_, fun snap hsnap => (List.mem_append.mp hsnap).elim (hs.created snap) (h.taken snap)⟩
  rcases eq_or_ne m n with rfl | hm
  · simpa [Fleet.put] using hs
  · simpa [Fleet.put, hm] using h.node m

omit [DecidableEq N] in
theorem Agrees.step_of_act (h : F.Agrees log) (hdelivers : F.Delivers log n a) {s : Sys}
    (hs : (F.node n).exec (env n) a = some s) : (F.node n).Step (env n) log a s := by
  refine ⟨hs, ?_⟩
  rintro snapshot entries rfl
  refine ⟨fun snap hsnap => (hdelivers.1 snap hsnap).2, fun snap hsnap => ?_, hdelivers.2⟩
  obtain ⟨happlied, hdata⟩ := h.taken snap (hdelivers.1 snap hsnap).1
  exact ⟨_, happlied, hdata⟩

theorem Agrees.step (h : F.Agrees log) (hlog : Countable log) {o : FleetAction N} (hexec : F.exec env log o = some F') :
    F'.Agrees log := by
  cases o with
  | act n a =>
      obtain ⟨hdelivers, hmap⟩ := Option.ite_none_right_eq_some.mp hexec
      obtain ⟨s, hs, rfl⟩ := Option.map_eq_some_iff.mp hmap
      refine h.put ((h.node n).step hlog (h.step_of_act hdelivers hs) ?_)
      rintro snapshot entries rfl snap hsnap
      exact h.taken snap (hdelivers.1 snap hsnap).1
  | restart n snapshot membership clock =>
      obtain ⟨htaken, hmap⟩ := Option.ite_none_right_eq_some.mp hexec
      obtain ⟨sm, hsm, rfl⟩ := Option.map_eq_some_iff.mp hmap
      refine h.put (faithful_start ?_ membership clock)
      cases snapshot with
      | none =>
          obtain rfl := Option.some.inj hsm
          rfl
      | some snap =>
          have hof := h.taken snap (htaken snap rfl)
          rw [startingStore, Store.restore_eq, hof.decode hlog] at hsm
          obtain rfl := Option.some.inj hsm
          rw [hof.1]

theorem agrees_of_run (hlog : Countable log) {membership : N → Membership} {clock : N → Option Nat}
    {ops : List (FleetAction N)} (hrun : ops.foldlM (exec env log) (start membership clock) = some F) : F.Agrees log := by
  have hrun' : Transition.Run (· = start membership clock) (fun F o F' => F.exec env log o = some F') ops F :=
    .of_foldlM (fun _ _ _ => id) rfl hrun
  refine hrun'.invariant (P := fun _ F => F.Agrees log) ?_ fun _ _ _ _ _ h hexec => h.step hlog hexec
  rintro _ rfl
  exact ⟨fun n => faithful_start rfl _ _, nofun⟩

/-- **Replicas agree.** Whatever each node of a cluster is delivered, installs and works off, wherever the snapshots it
installs or starts again with were taken, and in whatever order all of this happens: its state machine is the one of the
log at its index, so two nodes at the same index hold the same store. Snapshots of one index are the same bytes, and no
node ever fails to restore one. -/
theorem replicas_agree {membership : N → Membership} {clock : N → Option Nat} {ops : List (FleetAction N)}
    (hlog : Countable log) (hrun : ops.foldlM (exec env log) (start membership clock) = some F) :
    (∀ n, (F.node n).task.sm = logStore log (F.node n).task.sm.applied.toNat) ∧
      (∀ m n, (F.node m).task.sm.applied = (F.node n).task.sm.applied → (F.node m).task.sm = (F.node n).task.sm) ∧
      (∀ snap ∈ F.taken, ∀ other ∈ F.taken, snap.metadata.index = other.metadata.index → snap.data = other.data) ∧
      (∀ snap ∈ F.taken, ∀ st : Store, st.restore snap.data = (.ok (), logStore log snap.metadata.index.toNat)) ∧
      ∀ n index e, (F.node n).task.failed ≠ some (.restore index e) := by
  have hagrees := agrees_of_run hlog hrun
  refine ⟨fun n => (hagrees.node n).reflects.sm, fun m n heq => ?_, fun snap hsnap other hother heq => ?_,
    fun snap hsnap st => ?_, fun n => (hagrees.node n).restored⟩
  · rw [(hagrees.node m).reflects.sm, (hagrees.node n).reflects.sm, heq]
  · rw [(hagrees.taken snap hsnap).2, (hagrees.taken other hother).2, heq]
  · rw [Store.restore_eq, (hagrees.taken snap hsnap).decode hlog]

/-- A put, and only membership changes from then on. -/
def onePut : Nat → EntryType × Bytes :=
  fun i => if i = 1 then (.entry, StateMachine.encodePut ⟨1, 1⟩ [7] [1]) else (.confChange, [])

theorem countable_onePut : Countable onePut := by
  have hstore (i : Nat) : logStore onePut (i + 1) = { logStore onePut 1 with applied := UInt64.ofNat (i + 1) } := by
    induction i with
    | zero => decide +kernel
    | succ i ih => rw [logStore_succ_of_changes (by rw [ih]) (by simp [Changes, onePut]), ih]
  rintro (_ | i)
  · decide +kernel
  · rw [hstore]
    exact show (logStore onePut 1).kv.size < _ ∧ (logStore onePut 1).sessions.size < _ by decide +kernel

/-- The first node applies the put and takes a snapshot, which the other one installs and the first one starts again
with. -/
def sharingActions : List (FleetAction Bool) :=
  (([ .absorb, .poll none, .deliver none [⟨1, .entry, StateMachine.encodePut ⟨1, 1⟩ [7] [1]⟩], .pump, .pump, .finish,
      .take, .work, .work, .absorb, .poll none, .deliver none [], .pump, .finish, .take, .absorb, .poll (some 1)
    ] : List Action).map (.act false)) ++
  let snapshot : Snapshot :=
    { metadata := { index := 1, term := 1, confState := .default }, data := (logStore onePut 1).snapshot }
  (([ .absorb, .poll none, .deliver (some snapshot) [], .install, .pump, .finish, .take, .work, .work ] : List Action).map
    (.act true)) ++ [.restart false (some snapshot) noMembers none]

theorem replicas_agree_sharing :
    ∃ F, sharingActions.foldlM (exec (fun _ => { narrow with snapshotThresholdBytes := 1 }) onePut)
        (start (fun _ => noMembers) fun _ => none) = some F ∧
      F.taken.length = 1 ∧ (F.node false).task.sm.applied = 1 ∧ (F.node true).task.sm = (F.node false).task.sm := by
  have heval : (sharingActions.foldlM (exec (fun _ => { narrow with snapshotThresholdBytes := 1 }) onePut)
      (start (fun _ => noMembers) fun _ => none)).any (fun F => F.taken.length = 1 ∧
        (F.node false).task.sm.applied = 1 ∧ (F.node true).task.sm.applied = 1) := by
    decide +kernel
  obtain ⟨F, hrun, hfacts⟩ := (Option.any_eq_true _ _).mp heval
  obtain ⟨htaken, hfalse, htrue⟩ := of_decide_eq_true hfacts
  exact ⟨F, hrun, htaken, hfalse, (replicas_agree countable_onePut hrun).2.1 true false (htrue.trans hfalse.symm)⟩

end Fleet

end Arachne.Runtime.Pipeline
