import Arachne.Data.Run
import Arachne.Storage.Files
import Arachne.Transport.SnapshotStream
import Mathlib.Data.List.Perm.Basic

/-! # Fetching a streamed snapshot

A snapshot message without data is held back until its bytes are there. The actor starts a task that fetches them into a
file, and when the task reports, it reads the file, decodes it and steps the held message with the data of the decoded
snapshot.

A newer message supersedes an older one, whose task goes on. The actor tells a late report from a current one by sender
and index, and the file is named after sender and index too; the term is in neither. And what the decoded snapshot says
about itself is not compared with the message. So the data can be another snapshot's: because the peer served another
one, or because the task of an earlier message for the same index and another term reports first
(`stepped_under_foreign_identity`).

Where a task only ever writes the snapshot it was started for, and no two fetches under way differ in the term alone,
every message is stepped with its own snapshot (`stepped_under_own_identity`). The first condition is what a server that
streams the right file guarantees, however the transfer ends (`identity_of_served`). -/

namespace Arachne.Runtime

open Codec (Bytes)
open Storage (Snapshot decodeSnapshot encodeSnapshot)

/-! ## Messages, tasks and files -/

/-- A held snapshot message, by what it says of itself. -/
structure HeldSnapshot where
  sender : UInt64
  index : UInt64
  term : UInt64
  deriving DecidableEq, Repr

/-- The file of a fetch, `arachne-snapshot-{from}-{index}-{raft_id}.fetch`; the last number is this node's. -/
structure Dest where
  sender : UInt64
  index : UInt64
  deriving DecidableEq, Repr

def HeldSnapshot.dest (held : HeldSnapshot) : Dest := ⟨held.sender, held.index⟩

/-- `SNAPSHOT_FETCH_ATTEMPTS`. -/
def snapshotFetchAttempts : Nat := 8

/-- Where a fetch task is: at one of its attempts, done, or with its report in the channel. -/
inductive FetchPhase where
  | attempting (attempt : Nat)
  | finished (result : Except String (Option Nat))
  | reported (result : Except String (Option Nat))
  deriving DecidableEq

structure FetchTask where
  held : HeldSnapshot
  phase : FetchPhase
  deriving DecidableEq

/-- `SnapshotFetchDone`. -/
structure SnapshotFetchDone where
  sender : UInt64
  index : UInt64
  dest : Dest
  result : Except String (Option Nat)

/-- What is left of an attempt when the transport has answered: a result, or another attempt. -/
def FetchPhase.afterAttempt (attempt : Nat) (answer : Except String (Option Nat)) : FetchPhase :=
  let result : Except String (Option Nat) :=
    match answer with
    | .ok (some written) => .ok (some written)
    | .ok none => .error "the peer could not serve that snapshot"
    | .error e => .error e
  if result.isOk then .finished result
  else if attempt + 1 < snapshotFetchAttempts then .attempting (attempt + 1)
  else .finished result

/-- A message handed to raft with data, and the file the data is from. -/
structure SteppedSnapshot where
  held : HeldSnapshot
  file : Bytes
  data : Bytes
  deriving DecidableEq

/-- The actor's fetch, the tasks under way and the files. `stepped` is history. -/
structure FetchSys where
  snapshotFetch : Option HeldSnapshot := none
  tasks : List FetchTask := []
  files : Dest → Option Bytes := fun _ => none
  stepped : List SteppedSnapshot := []

inductive FetchAction where
  /-- A message is held back. -/
  | hold (held : HeldSnapshot)
  /-- A task changes its file. -/
  | write (task : Nat) (content : Bytes)
  /-- The transport answers an attempt. -/
  | answer (task : Nat) (answer : Except String (Option Nat))
  /-- A task puts its report into the channel, which takes one. -/
  | report (task : Nat)
  /-- The actor takes the report out. -/
  | receive (task : Nat)

namespace FetchSys

def removeFile (σ : FetchSys) (dest : Dest) : FetchSys := { σ with files := Function.update σ.files dest none }

/-- The fetch that a newer message supersedes is forgotten and its file dropped; its task goes on. -/
def supersede (σ : FetchSys) : FetchSys :=
  match σ.snapshotFetch with
  | some previous => { σ.removeFile previous.dest with snapshotFetch := none }
  | none => σ

/-- `start_snapshot_fetch`. -/
def startSnapshotFetch (raftToNode : List UInt64) (σ : FetchSys) (held : HeldSnapshot) : FetchSys :=
  let σ := σ.supersede
  if held.sender ∈ raftToNode then
    { σ with tasks := σ.tasks ++ [⟨held, .attempting 0⟩], snapshotFetch := some held }
  else σ

/-- The bytes of a fetch that succeeded, if the file can be read. -/
def readFetched (σ : FetchSys) (done : SnapshotFetchDone) : Option Bytes :=
  match done.result with
  | .ok (some _) => σ.files done.dest
  | _ => none

/-- `finish_snapshot_fetch`, with the data as it is passed to `step_held_snapshot`. -/
def finishSnapshotFetch (σ : FetchSys) (done : SnapshotFetchDone) : FetchSys :=
  match σ.snapshotFetch with
  | none => σ.removeFile done.dest
  | some held =>
    if held.sender = done.sender ∧ held.index = done.index then
      -- the file is read before it is removed
      let rest := { σ.removeFile done.dest with snapshotFetch := none }
      match σ.readFetched done with
      | none => rest
      | some file =>
        match decodeSnapshot file with
        | .error _ => rest
        | .ok snapshot => { rest with stepped := σ.stepped ++ [⟨held, file, snapshot.data⟩] }
    else σ.removeFile done.dest

def exec (raftToNode : List UInt64) (σ : FetchSys) : FetchAction → Option FetchSys
  | .hold held => some (σ.startSnapshotFetch raftToNode held)
  | .write i content => do
    let task ← σ.tasks[i]?
    match task.phase with
    | .attempting _ => some { σ with files := Function.update σ.files task.held.dest (some content) }
    | _ => none
  | .answer i answer => do
    let task ← σ.tasks[i]?
    match task.phase with
    | .attempting attempt => some { σ with tasks := σ.tasks.set i { task with phase := .afterAttempt attempt answer } }
    | _ => none
  | .report i => do
    let task ← σ.tasks[i]?
    match task.phase with
    | .finished result =>
      if σ.tasks.all fun other => match other.phase with | .reported _ => false | _ => true then
        some { σ with tasks := σ.tasks.set i { task with phase := .reported result } }
      else none
    | _ => none
  | .receive i => do
    let task ← σ.tasks[i]?
    match task.phase with
    | .reported result =>
      let σ := { σ with tasks := σ.tasks.eraseIdx i }
      some (σ.finishSnapshotFetch ⟨task.held.sender, task.held.index, task.held.dest, result⟩)
    | _ => none

end FetchSys

/-- A run whose every action satisfies `ok` in the state it is taken in. -/
abbrev FetchRun (raftToNode : List UInt64) (ok : FetchSys → FetchAction → Prop) : List FetchAction → FetchSys → Prop :=
  Transition.Run (· = {}) fun σ a σ' => ok σ a ∧ σ.exec raftToNode a = some σ'

/-! ## Identities -/

/-- A file that decodes is the named snapshot. -/
def HeldSnapshot.Names (held : HeldSnapshot) (file : Bytes) : Prop :=
  ∀ snapshot, decodeSnapshot file = .ok snapshot → snapshot.metadata.index = held.index ∧ snapshot.metadata.term = held.term

instance (held : HeldSnapshot) (file : Bytes) : Decidable (held.Names file) :=
  match h : decodeSnapshot file with
  | .error _ => .isTrue fun _ hdecode => by cases h.symm.trans hdecode
  | .ok snapshot =>
    decidable_of_iff (snapshot.metadata.index = held.index ∧ snapshot.metadata.term = held.term)
      ⟨fun hid _ hdecode => Except.ok.inj (h.symm.trans hdecode) ▸ hid, fun hnames => hnames snapshot h⟩

/-- A task writes the snapshot it was started for, and a message is held only while no fetch under way has the same file
and another term. -/
def FetchSys.Faithful (σ : FetchSys) : FetchAction → Prop
  | .hold held => ∀ task ∈ σ.tasks, task.held.dest = held.dest → task.held.term = held.term
  | .write i content => ∀ task ∈ σ.tasks[i]?, task.held.Names content
  | _ => True

instance (σ : FetchSys) (a : FetchAction) : Decidable (σ.Faithful a) := by
  cases a with
  | hold held => exact inferInstanceAs (Decidable (∀ task ∈ σ.tasks, task.held.dest = held.dest → task.held.term = held.term))
  | write i content => exact inferInstanceAs (Decidable (∀ task ∈ σ.tasks[i]?, task.held.Names content))
  | _ => exact instDecidableTrue

/-- The messages whose tasks are under way. -/
def FetchSys.underWay (σ : FetchSys) : List HeldSnapshot := σ.tasks.map FetchTask.held

structure FetchInv (σ : FetchSys) : Prop where
  agree : ∀ held ∈ σ.underWay, ∀ other ∈ σ.underWay, held.dest = other.dest → held.term = other.term
  current : ∀ held ∈ σ.snapshotFetch, held ∈ σ.underWay
  written : ∀ dest, ∀ content ∈ σ.files dest, ∃ held ∈ σ.underWay, held.dest = dest ∧ held.Names content
  own : ∀ r ∈ σ.stepped, ∃ snapshot, decodeSnapshot r.file = .ok snapshot ∧ r.data = snapshot.data ∧
    snapshot.metadata.index = r.held.index ∧ snapshot.metadata.term = r.held.term

variable {raftToNode : List UInt64} {σ σ' : FetchSys}

/-- Without one of its files. -/
theorem FetchInv.removeFile (h : FetchInv σ) (dest : Dest) : FetchInv (σ.removeFile dest) where
  agree := h.agree
  current := h.current
  written d content hcontent := by
    change content ∈ Function.update σ.files dest none d at hcontent
    by_cases hd : d = dest
    · subst hd
      rw [Function.update_self] at hcontent
      cases hcontent
    · rw [Function.update_of_ne hd] at hcontent
      exact h.written d content hcontent
  own := h.own

/-- Without a current fetch. -/
theorem FetchInv.idle (h : FetchInv σ) : FetchInv { σ with snapshotFetch := none } where
  agree := h.agree
  current _ hheld := by cases hheld
  written := h.written
  own := h.own

theorem FetchInv.startTask {held : HeldSnapshot} (h : FetchInv σ)
    (hterm : ∀ other ∈ σ.underWay, other.dest = held.dest → other.term = held.term) :
    FetchInv { σ with tasks := σ.tasks ++ [⟨held, .attempting 0⟩], snapshotFetch := some held } := by
  have hunder : FetchSys.underWay { σ with tasks := σ.tasks ++ [⟨held, .attempting 0⟩], snapshotFetch := some held } =
      σ.underWay ++ [held] := List.map_append
  constructor
  · rw [hunder]
    intro a ha b hb hdest
    rw [List.mem_append, List.mem_singleton] at ha hb
    rcases ha with ha | rfl <;> rcases hb with hb | rfl
    · exact h.agree a ha b hb hdest
    · exact hterm a ha hdest
    · exact (hterm b hb hdest.symm).symm
    · rfl
  · intro current hcurrent
    obtain rfl := Option.some.inj hcurrent
    rw [hunder]
    exact List.mem_append_right _ (List.mem_singleton_self _)
  · intro dest content hcontent
    obtain ⟨other, hother, hnames⟩ := h.written dest content hcontent
    rw [hunder]
    exact ⟨other, List.mem_append_left _ hother, hnames⟩
  · exact h.own

theorem FetchInv.supersede (h : FetchInv σ) : FetchInv σ.supersede := by
  rw [FetchSys.supersede]
  split
  · exact (h.removeFile _).idle
  · exact h

theorem underWay_supersede : σ.supersede.underWay = σ.underWay := by
  rw [FetchSys.supersede]
  split <;> rfl

theorem FetchInv.startSnapshotFetch {held : HeldSnapshot} (h : FetchInv σ) (hfaithful : σ.Faithful (.hold held)) :
    FetchInv (σ.startSnapshotFetch raftToNode held) := by
  simp only [FetchSys.startSnapshotFetch]
  split
  · refine h.supersede.startTask fun other hother => ?_
    rw [underWay_supersede] at hother
    obtain ⟨task, htask, rfl⟩ := List.mem_map.mp hother
    exact hfaithful task htask
  · exact h.supersede

theorem FetchInv.write {task : FetchTask} {content : Bytes} (h : FetchInv σ) (htask : task ∈ σ.tasks)
    (hnames : task.held.Names content) :
    FetchInv { σ with files := Function.update σ.files task.held.dest (some content) } where
  agree := h.agree
  current := h.current
  written dest c hc := by
    change c ∈ Function.update σ.files task.held.dest (some content) dest at hc
    by_cases hdest : dest = task.held.dest
    · subst hdest
      rw [Function.update_self] at hc
      obtain rfl := Option.some.inj hc
      exact ⟨task.held, List.mem_map_of_mem htask, rfl, hnames⟩
    · rw [Function.update_of_ne hdest] at hc
      exact h.written dest c hc
  own := h.own

/-- A task moves on. -/
theorem FetchInv.setPhase {i : Nat} {task : FetchTask} (h : FetchInv σ) (htask : σ.tasks[i]? = some task)
    (phase : FetchPhase) : FetchInv { σ with tasks := σ.tasks.set i { task with phase } } := by
  have hunder : FetchSys.underWay { σ with tasks := σ.tasks.set i { task with phase } } = σ.underWay := by
    have hget : σ.underWay[i]? = some task.held := by
      rw [FetchSys.underWay, List.getElem?_map, htask]
      rfl
    obtain ⟨hi, heq⟩ := List.getElem?_eq_some_iff.mp hget
    calc (σ.tasks.set i { task with phase }).map FetchTask.held
        = σ.underWay.set i task.held := List.map_set
      _ = σ.underWay := by rw [← heq, List.set_getElem_self hi]
  refine ⟨?_, ?_, ?_, h.own⟩
  · rw [hunder]
    exact h.agree
  · rw [hunder]
    exact h.current
  · rw [hunder]
    exact h.written

/-! ## A report -/

/-- The file that is read belongs to a task of the same sender and index, so of the same term, as the held message. -/
theorem FetchInv.names_current {held other : HeldSnapshot} {content : Bytes} (h : FetchInv σ) (hheld : held ∈ σ.snapshotFetch)
    (hdest : held.dest = other.dest) (hcontent : content ∈ σ.files other.dest) : held.Names content := by
  obtain ⟨writer, hwriter, hsame, hnames⟩ := h.written other.dest content hcontent
  have hterm := h.agree writer hwriter held (h.current held hheld) (hsame.trans hdest.symm)
  have hindex : writer.index = held.index := congrArg Dest.index (hsame.trans hdest.symm)
  intro snapshot hdecode
  rw [← hindex, ← hterm]
  exact hnames snapshot hdecode

/-- A message with another file is still under way when a task has left. -/
theorem mem_underWay_eraseIdx {i : Nat} {task : FetchTask} {held : HeldSnapshot} (htask : σ.tasks[i]? = some task)
    (hheld : held ∈ σ.underWay) (hne : held.dest ≠ task.held.dest) :
    held ∈ FetchSys.underWay { σ with tasks := σ.tasks.eraseIdx i } := by
  obtain ⟨hi, rfl⟩ := List.getElem?_eq_some_iff.mp htask
  obtain ⟨other, hother, rfl⟩ := List.mem_map.mp hheld
  rcases List.mem_cons.mp ((List.getElem_cons_eraseIdx_perm hi).mem_iff.mpr hother) with rfl | hmem
  · exact absurd rfl hne
  · exact List.mem_map_of_mem hmem

/-- The file of a task that has left is removed, and then it is as if the task had never been. -/
theorem FetchInv.leave {i : Nat} {task : FetchTask} {snapshotFetch : Option HeldSnapshot} (h : FetchInv σ)
    (htask : σ.tasks[i]? = some task)
    (hcurrent : ∀ held ∈ snapshotFetch, held ∈ σ.snapshotFetch ∧ held.dest ≠ task.held.dest) :
    FetchInv { FetchSys.removeFile { σ with tasks := σ.tasks.eraseIdx i } task.held.dest with snapshotFetch } where
  agree held hheld other hother := by
    have hsub : ∀ x ∈ FetchSys.underWay { σ with tasks := σ.tasks.eraseIdx i }, x ∈ σ.underWay := by
      intro x hx
      obtain ⟨t, ht, rfl⟩ := List.mem_map.mp hx
      exact List.mem_map_of_mem (List.mem_of_mem_eraseIdx ht)
    exact h.agree held (hsub held hheld) other (hsub other hother)
  current held hheld := by
    obtain ⟨hmem, hne⟩ := hcurrent held hheld
    exact mem_underWay_eraseIdx htask (h.current held hmem) hne
  written dest content hcontent := by
    change content ∈ Function.update σ.files task.held.dest none dest at hcontent
    by_cases hdest : dest = task.held.dest
    · subst hdest
      rw [Function.update_self] at hcontent
      cases hcontent
    · rw [Function.update_of_ne hdest] at hcontent
      obtain ⟨writer, hwriter, rfl, hnames⟩ := h.written dest content hcontent
      exact ⟨writer, mem_underWay_eraseIdx htask hwriter hdest, rfl, hnames⟩
  own := h.own

theorem FetchInv.receive {i : Nat} {task : FetchTask} (h : FetchInv σ) (htask : σ.tasks[i]? = some task)
    (result : Except String (Option Nat)) :
    FetchInv (FetchSys.finishSnapshotFetch { σ with tasks := σ.tasks.eraseIdx i }
      ⟨task.held.sender, task.held.index, task.held.dest, result⟩) := by
  have hidle : FetchInv { FetchSys.removeFile { σ with tasks := σ.tasks.eraseIdx i } task.held.dest with
      snapshotFetch := none } := h.leave htask fun held hheld => by cases hheld
  unfold FetchSys.finishSnapshotFetch
  split
  · next hfetch =>
      refine h.leave htask (?_ : ∀ held ∈ σ.snapshotFetch, _)
      intro held hheld
      cases hfetch.symm.trans hheld
  next held hfetch =>
  split
  · next hcurrent =>
      have hdest : held.dest = task.held.dest := by
        rw [HeldSnapshot.dest, hcurrent.1, hcurrent.2]
        rfl
      split
      · exact hidle
      next file hfile =>
      split
      · exact hidle
      next snapshot hdecode =>
      have hcontent : file ∈ σ.files task.held.dest := by
        unfold FetchSys.readFetched at hfile
        split at hfile
        · exact hfile
        · cases hfile
      refine ⟨hidle.agree, hidle.current, hidle.written, fun r hr => ?_⟩
      rcases List.mem_append.mp hr with hr | hr
      · exact h.own r hr
      · obtain rfl := List.mem_singleton.mp hr
        exact ⟨snapshot, hdecode, rfl, h.names_current hfetch hdest hcontent snapshot hdecode⟩
  · next hcurrent =>
      refine h.leave htask (?_ : ∀ held ∈ σ.snapshotFetch, _)
      intro other hother
      obtain rfl := Option.some.inj (hfetch.symm.trans hother)
      refine ⟨hother, fun hdest => hcurrent ?_⟩
      exact ⟨congrArg Dest.sender hdest, congrArg Dest.index hdest⟩

theorem FetchInv.step {a : FetchAction} (h : FetchInv σ) (hfaithful : σ.Faithful a)
    (hexec : σ.exec raftToNode a = some σ') : FetchInv σ' := by
  cases a with
  | hold held =>
      obtain rfl := Option.some.inj hexec
      exact h.startSnapshotFetch hfaithful
  | write i content =>
      obtain ⟨task, htask, hexec⟩ := Option.bind_eq_some_iff.mp hexec
      split at hexec
      · obtain rfl := Option.some.inj hexec
        exact h.write (List.mem_of_getElem? htask) (hfaithful task htask)
      · cases hexec
  | answer i answer =>
      obtain ⟨task, htask, hexec⟩ := Option.bind_eq_some_iff.mp hexec
      split at hexec
      · obtain rfl := Option.some.inj hexec
        exact h.setPhase htask _
      · cases hexec
  | report i =>
      obtain ⟨task, htask, hexec⟩ := Option.bind_eq_some_iff.mp hexec
      split at hexec
      · obtain ⟨-, hexec⟩ := Option.ite_none_right_eq_some.mp hexec
        obtain rfl := Option.some.inj hexec
        exact h.setPhase htask _
      · cases hexec
  | receive i =>
      obtain ⟨task, htask, hexec⟩ := Option.bind_eq_some_iff.mp hexec
      split at hexec
      · obtain rfl := Option.some.inj hexec
        exact h.receive htask _
      · cases hexec

/-- **Every message is stepped with its own snapshot** in a run of faithful actions: the data is from a file that decodes,
and to a snapshot with the index and the term of the message. -/
theorem stepped_under_own_identity {actions : List FetchAction} (h : FetchRun raftToNode FetchSys.Faithful actions σ) :
    ∀ r ∈ σ.stepped, ∃ snapshot, decodeSnapshot r.file = .ok snapshot ∧ r.data = snapshot.data ∧
      snapshot.metadata.index = r.held.index ∧ snapshot.metadata.term = r.held.term := by
  have hinv : FetchInv σ := by
    refine Transition.Run.invariant (P := fun _ σ => FetchInv σ) ?_ ?_ h
    · rintro _ rfl
      refine ⟨?_, ?_, ?_, ?_⟩
      · intro held hheld
        cases hheld
      · intro held hheld
        cases hheld
      · intro dest content hcontent
        cases hcontent
      · intro r hr
        cases hr
    · rintro _ σ a σ' - hinv ⟨hfaithful, hexec⟩
      exact hinv.step hfaithful hexec
  exact hinv.own

/-! ## The peer -/

/-- **A peer that streams the file of the snapshot it named** leaves nothing else behind, whatever the reads, the
connection and the destination's disk do to the transfer: what there is of the file is the snapshot or does not decode. -/
theorem identity_of_served {snapshot : Snapshot} {held : HeldSnapshot} {source : Transport.Source} {len chunkBytes : Nat}
    {room : Transport.Room} {disk : Transport.Disk} {peer : String} {known : Bool} {connect : Except String Unit}
    {cut : Option (Nat × Transport.Status)} {content : Bytes} (hsource : source.rest = encodeSnapshot snapshot)
    (hindex : snapshot.metadata.index = held.index) (hterm : snapshot.metadata.term = held.term)
    (h : (Transport.fetchSnapshot disk (Transport.openStream peer known connect
      (.ok (Transport.deliver cut (Transport.streamSnapshot source len chunkBytes room).items)))).2 = some content) :
    held.Names content := by
  intro found hfound
  have hpart : encodeSnapshot found <+: encodeSnapshot snapshot := by
    rw [Storage.encodeSnapshot_of_decodeSnapshot hfound, ← hsource]
    exact Transport.dest_isPrefix h
  obtain ⟨hi, ht⟩ := Storage.identity_of_isPrefix hpart
  exact ⟨hi.trans hindex, ht.trans hterm⟩

/-! ## Runs -/

/-- The run of a list of actions, if each of them is `ok` and possible. -/
def runFetch (ok : FetchSys → FetchAction → Prop) [∀ σ a, Decidable (ok σ a)] (actions : List FetchAction) : Option FetchSys :=
  actions.foldlM (fun σ a => if ok σ a then σ.exec [2] a else none) {}

theorem FetchRun.of_runFetch {ok : FetchSys → FetchAction → Prop} [∀ σ a, Decidable (ok σ a)] {actions : List FetchAction}
    (h : runFetch ok actions = some σ) : FetchRun [2] ok actions σ := by
  refine Transition.Run.of_foldlM (fun σ a σ' hstep => ?_) rfl h
  exact Option.ite_none_right_eq_some.mp hstep

/-- The file of a snapshot with one byte of data. -/
def sampleFile (index term : UInt64) : Bytes :=
  encodeSnapshot { metadata := { index, term, confState := { voters := [1], learners := [] } }, data := [7] }

theorem identity_of_served_sample : (⟨2, 10, 3⟩ : HeldSnapshot).Names (sampleFile 10 3) :=
  @identity_of_served { metadata := { index := 10, term := 3, confState := { voters := [1], learners := [] } }, data := [7] }
    ⟨2, 10, 3⟩ { rest := sampleFile 10 3, plan := fun _ => .ok 58 } 58 32 none {} "n1" true (.ok ()) none _ rfl rfl rfl
    (by decide +kernel)

/-- A fetch is superseded by one for a later index, and reports late; the other one needs two attempts. -/
def supersededFetch : List FetchAction :=
  [.hold ⟨2, 10, 3⟩, .write 0 (sampleFile 10 3), .hold ⟨2, 20, 3⟩, .answer 0 (.ok (some 58)), .report 0, .receive 0,
    .write 0 [], .answer 0 (.error "reset"), .write 0 (sampleFile 20 3), .answer 0 (.ok (some 58)), .report 0, .receive 0]

theorem stepped_under_own_identity_superseded : ∃ σ, FetchRun [2] FetchSys.Faithful supersededFetch σ ∧
    σ.stepped = [⟨⟨2, 20, 3⟩, sampleFile 20 3, [7]⟩] ∧
    ∀ r ∈ σ.stepped, ∃ snapshot, decodeSnapshot r.file = .ok snapshot ∧ r.data = snapshot.data ∧
      snapshot.metadata.index = r.held.index ∧ snapshot.metadata.term = r.held.term := by
  have heval : (runFetch FetchSys.Faithful supersededFetch).any fun σ =>
      σ.stepped = [⟨⟨2, 20, 3⟩, sampleFile 20 3, [7]⟩] := by
    decide +kernel
  obtain ⟨σ, hσ, hfacts⟩ := (Option.any_eq_true _ _).mp heval
  have hrun := FetchRun.of_runFetch hσ
  exact ⟨σ, hrun, of_decide_eq_true hfacts, stepped_under_own_identity hrun⟩

/-- In the end a message was stepped with the data of a snapshot that is not the one it names. -/
def StepsForeign (actions : List FetchAction) : Prop :=
  ∃ σ, FetchRun [2] (fun _ _ => True) actions σ ∧ ∃ r ∈ σ.stepped, ¬ r.held.Names r.file

theorem StepsForeign.of_eval {actions : List FetchAction}
    (h : (runFetch (fun _ _ => True) actions).any fun σ => σ.stepped.any fun r => ¬ r.held.Names r.file) :
    StepsForeign actions := by
  obtain ⟨σ, hσ, hfacts⟩ := (Option.any_eq_true _ _).mp h
  obtain ⟨r, hr, hforeign⟩ := List.any_eq_true.mp hfacts
  exact ⟨σ, .of_runFetch hσ, r, hr, of_decide_eq_true hforeign⟩

/-- The peer serves an older snapshot than the one it named. -/
def foreignFile : List FetchAction :=
  [.hold ⟨2, 20, 3⟩, .write 0 (sampleFile 10 1), .answer 0 (.ok (some 58)), .report 0, .receive 0]

/-- Both tasks write what they were started for, but the messages differ only in the term. -/
def foreignTerm : List FetchAction :=
  [.hold ⟨2, 20, 3⟩, .hold ⟨2, 20, 4⟩, .write 0 (sampleFile 20 3), .answer 0 (.ok (some 58)), .report 0, .receive 0]

/-- **A message is stepped with another snapshot's data**, either way. -/
theorem stepped_under_foreign_identity : StepsForeign foreignFile ∧ StepsForeign foreignTerm :=
  ⟨.of_eval (by decide +kernel), .of_eval (by decide +kernel)⟩

end Arachne.Runtime
