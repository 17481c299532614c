import Arachne.Client.Handle
import Arachne.Storage.Read

/-! # Session identities across restarts

A handle numbers its writes, and the state machine answers a second write under the same number with the
outcome of the first. So a handle that is made anew when its process restarts must start above every number
it has used. `Runtime::new` computes the start from what the node has on disk: the session table of its
snapshot and the commands in its log behind it.

The cluster's log is not the node's. A write that was forwarded is committed without this node, and a node
that lags has not stored it; a write of its own may still be committed after the restart; and a session may
have been collected. `no_session_reused` is what the computation does give: if at every restart the disk
shows a number of the client at least as high as each one in use, no number is used twice. -/

namespace Arachne.Runtime

open Codec (Bytes)
open Client (Handle Proposal)
open StateMachine (SessionKey SessionTable Store KvError Write commandSession)
open Storage (Dir WalStorage WalOptions LogEntry StorageError)

/-! ## Where the numbers start -/

/-- `u64::MAX`. -/
def maxU64 : UInt64 := 18446744073709551615

/-- `max_session_seq`: the number of the last session of the table not above `(client_id, u64::MAX)`, if it
is one of the client, and 0 otherwise. -/
def maxSessionSeq (sessions : SessionTable) (clientId : UInt64) : Nat :=
  let probe : SessionKey := ⟨clientId, maxU64⟩
  match (sessions.keys.filter fun key => (compare key probe).isLE).getLast? with
  | some key => if key.clientId = clientId then key.seqNo.toNat else 0
  | none => 0

/-- The running maximum of `max_session_seq_in_data`. -/
def seenSeq (clientId : UInt64) (maxSeq : Nat) (data : Bytes) : Nat :=
  match commandSession data with
  | some session => if session.clientId = clientId then max maxSeq session.seqNo.toNat else maxSeq
  | none => maxSeq

def maxSessionSeqInData (datas : List Bytes) (clientId : UInt64) : Nat := datas.foldl (seenSeq clientId) 0

/-- Why a runtime could not be assembled. -/
inductive StartError where
  /-- "cannot restore the state machine from the snapshot at {snapshot_index}: {e}" -/
  | restore (snapshotIndex : Nat) (e : KvError)
  /-- "cannot scan the log tail for sessions: {e}" -/
  | scan (e : StorageError)
  /-- "cannot scan the log tail for sessions: storage returned no entry for in-range index {next}" -/
  | missing (next : Nat)
  deriving DecidableEq, Repr

def chunkEntries : Nat := 4096
def chunkBytes : Nat := 4 * 1024 * 1024

def readTail (storage : WalStorage) (low high : Nat) (maxSize : Option Nat) : Except StartError (List LogEntry) :=
  (storage.entriesIn low high maxSize).mapError .scan

/-- The loop of `log_tail_max_session_seq`. Each round reads at least one entry, so `fuel` need not exceed the
number of entries left. -/
def scanTail (storage : WalStorage) (clientId : UInt64) : Nat → Nat → Nat → Except StartError Nat
  | 0, _, maxSeq => .ok maxSeq
  | fuel + 1, next, maxSeq =>
    if next ≤ storage.lastIndex then do
      let high := min (next + chunkEntries) (storage.lastIndex + 1)
      let batch ← readTail storage next high (some chunkBytes)
      if batch.isEmpty then
        -- The next entry alone is larger than a chunk.
        let single ← readTail storage next (next + 1) none
        if single.isEmpty then .error (.missing next)
        else
          scanTail storage clientId fuel (next + 1)
            (max maxSeq (maxSessionSeqInData (single.map (·.data)) clientId))
      else
        scanTail storage clientId fuel (next + batch.length)
          (max maxSeq (maxSessionSeqInData (batch.map (·.data)) clientId))
    else .ok maxSeq

def logTailMaxSessionSeq (storage : WalStorage) (fromIndex : Nat) (clientId : UInt64) : Except StartError Nat :=
  let next := max fromIndex 1
  scanTail storage clientId (storage.lastIndex + 1 - next) next 0

/-- The state machine a runtime starts with. -/
def restoredStore (storage : WalStorage) : Except StartError Store :=
  match storage.snapshot with
  | none => .ok .new
  | some snapshot =>
    match Store.new.restore snapshot.data with
    | (.ok (), store) => .ok store
    | (.error e, _) => .error (.restore snapshot.metadata.index.toNat e)

/-- What a node is configured with, and the value of the counter its handle is made at. -/
structure NodeConfig where
  nodeId : String
  counter : UInt64
  storage : WalOptions
  maxKeyBytes : Nat
  maxValueBytes : Nat

def NodeConfig.clientId (cfg : NodeConfig) : UInt64 := Client.clientIdFor cfg.nodeId cfg.counter

def saturatingSucc (n : Nat) : Nat := min (n + 1) (2 ^ 64 - 1)

/-- The first number of the handle `Runtime::new` makes. -/
def initialSeq (storage : WalStorage) (clientId : UInt64) : Except StartError Nat := do
  let store ← restoredStore storage
  let snapshotMaxSeq := maxSessionSeq store.sessions clientId
  let scanFrom := max storage.firstIndex (WalStorage.watermark storage.snapshot + 1)
  let tailMaxSeq ← logTailMaxSessionSeq storage scanFrom clientId
  return max (saturatingSucc (max snapshotMaxSeq tailMaxSeq)) 1

/-- The handle of a runtime over an opened store. -/
def NodeConfig.newHandle (cfg : NodeConfig) (storage : WalStorage) : Except StartError Handle := do
  let seq ← initialSeq storage cfg.clientId
  return { clientId := cfg.clientId, seq := UInt64.ofNat seq, maxKeyBytes := cfg.maxKeyBytes, maxValueBytes := cfg.maxValueBytes }

/-! ## What the start is above -/

theorem isLE_compare_session {s t : SessionKey} :
    (compare s t).isLE ↔ s.clientId < t.clientId ∨ s.clientId = t.clientId ∧ s.seqNo ≤ t.seqNo := by
  show ((compare s.clientId t.clientId).then (compare s.seqNo t.seqNo)).isLE ↔ _
  rw [Ordering.isLE_then_iff_or, Std.compare_eq_lt, Std.compare_eq_iff_eq, Std.isLE_compare]

theorem le_maxU64 (x : UInt64) : x ≤ maxU64 := by
  rw [UInt64.le_iff_toNat_le]
  exact Nat.le_of_lt_succ x.toNat_lt

theorem le_maxSessionSeq {sessions : SessionTable} {session : SessionKey} (h : session ∈ sessions) :
    session.seqNo.toNat ≤ maxSessionSeq sessions session.clientId := by
  have hprobe : (compare session ⟨session.clientId, maxU64⟩).isLE :=
    isLE_compare_session.mpr (.inr ⟨rfl, le_maxU64 _⟩)
  rw [maxSessionSeq]
  generalize hkeys : sessions.keys.filter _ = keys
  have hmem : session ∈ keys := by
    rw [← hkeys, List.mem_filter, Std.ExtTreeMap.mem_keys]
    exact ⟨h, hprobe⟩
  have hsorted : keys.Pairwise fun a b => compare a b = .lt := hkeys ▸ Std.ExtTreeMap.ordered_keys.filter _
  obtain ⟨front, last, rfl⟩ : ∃ front last, keys = front ++ [last] :=
    ⟨_, _, (List.dropLast_append_getLast (List.ne_nil_of_mem hmem)).symm⟩
  rw [List.getLast?_append_of_ne_nil front (List.cons_ne_nil last []), List.getLast?_singleton]
  -- the session is not above the last one, which is not above the probe
  have hle : (compare session last).isLE := by
    rcases List.mem_append.mp hmem with hfront | hlast
    · rw [(List.pairwise_append.mp hsorted).2.2 session hfront last (List.mem_singleton_self last)]
      rfl
    · rw [List.mem_singleton.mp hlast]
      exact isLE_compare_session.mpr (.inr ⟨rfl, UInt64.le_refl _⟩)
  have hlast : (compare last ⟨session.clientId, maxU64⟩).isLE := by
    have hin : last ∈ front ++ [last] := List.mem_append_right _ (List.mem_singleton_self last)
    rw [← hkeys] at hin
    exact (List.mem_filter.mp hin).2
  rw [isLE_compare_session, UInt64.lt_iff_toNat_lt, UInt64.le_iff_toNat_le] at hle hlast
  obtain ⟨hclient, hseq⟩ : last.clientId = session.clientId ∧ session.seqNo.toNat ≤ last.seqNo.toNat := by
    rcases hle with hlt | ⟨heq, hseq⟩
    · rcases hlast with hlt' | ⟨heq, -⟩
      · exact absurd hlt' (Nat.not_lt_of_lt hlt)
      · exact absurd hlt (by rw [heq]; exact Nat.lt_irrefl _)
    · exact ⟨heq.symm, hseq⟩
  dsimp only
  rw [if_pos hclient]
  exact hseq

theorem foldl_seenSeq (clientId : UInt64) (datas : List Bytes) (maxSeq : Nat) :
    datas.foldl (seenSeq clientId) maxSeq = max maxSeq (maxSessionSeqInData datas clientId) := by
  have hstep : ∀ m data, seenSeq clientId m data = max m (seenSeq clientId 0 data) := by
    intro m data
    simp only [seenSeq]
    split
    · split_ifs <;> omega
    · omega
  induction datas generalizing maxSeq with
  | nil => exact (Nat.max_zero maxSeq).symm
  | cons data datas ih =>
      rw [maxSessionSeqInData, List.foldl_cons, List.foldl_cons, ih, ih (seenSeq clientId 0 data), hstep, Nat.max_assoc]

theorem maxSessionSeqInData_append (xs ys : List Bytes) (clientId : UInt64) :
    maxSessionSeqInData (xs ++ ys) clientId = max (maxSessionSeqInData xs clientId) (maxSessionSeqInData ys clientId) := by
  rw [maxSessionSeqInData, List.foldl_append, foldl_seenSeq]
  rfl

theorem le_maxSessionSeqInData {datas : List Bytes} {data : Bytes} {session : SessionKey} (hdata : data ∈ datas)
    (h : commandSession data = some session) : session.seqNo.toNat ≤ maxSessionSeqInData datas session.clientId := by
  obtain ⟨front, rest, rfl⟩ := List.append_of_mem hdata
  have hhead : session.seqNo.toNat ≤ seenSeq session.clientId 0 data := by
    simp [seenSeq, h]
  have htail : seenSeq session.clientId 0 data ≤ maxSessionSeqInData (data :: rest) session.clientId := by
    rw [maxSessionSeqInData, List.foldl_cons, foldl_seenSeq]
    exact Nat.le_max_left _ _
  rw [maxSessionSeqInData_append]
  omega

/-- What is left of the log after reading some of it. -/
theorem drop_of_append_eq {xs rest entries : List LogEntry} {first next : Nat} (hnext : first ≤ next)
    (h : xs ++ rest = entries.drop (next - first)) : entries.drop (next + xs.length - first) = rest := by
  rw [show next + xs.length - first = next - first + xs.length by omega, ← List.drop_drop, ← h, List.drop_left]

/-- **The scan of the log** reaches the end, and returns the highest number of the client in it. -/
theorem scanTail_eq {storage : WalStorage} (h : storage.Aligned) (clientId : UInt64) {fuel next : Nat} (maxSeq : Nat)
    (hnext : storage.firstIndex ≤ next) (hfuel : storage.lastIndex + 1 - next ≤ fuel) :
    scanTail storage clientId fuel next maxSeq =
      .ok (max maxSeq (maxSessionSeqInData ((storage.entries.drop (next - storage.firstIndex)).map (·.data)) clientId)) := by
  have hlast := h.lastIndex_eq
  have hfirst : storage.firstIndex = storage.compactedTo + 1 := rfl
  have hdone : storage.lastIndex < next → storage.entries.drop (next - storage.firstIndex) = [] := by
    intro hlt
    exact List.drop_eq_nil_of_le (by omega)
  induction fuel generalizing next maxSeq with
  | zero =>
      rw [hdone (by omega)]
      exact congrArg Except.ok (Nat.max_zero maxSeq).symm
  | succ fuel ih =>
      rw [scanTail]
      split_ifs with hle
      · -- one round: what it reads, and the log that is left
        have hround : ∀ xs : List LogEntry, xs ≠ [] → xs <+: storage.entries.drop (next - storage.firstIndex) →
            scanTail storage clientId fuel (next + xs.length)
              (max maxSeq (maxSessionSeqInData (xs.map (·.data)) clientId)) =
              .ok (max maxSeq (maxSessionSeqInData
                ((storage.entries.drop (next - storage.firstIndex)).map (·.data)) clientId)) := by
          rintro xs hne ⟨rest, hrest⟩
          have hpos := List.length_pos_iff.mpr hne
          rw [ih _ (by omega) (by omega) (fun hlt => List.drop_eq_nil_of_le (by omega)), drop_of_append_eq hnext hrest,
            ← hrest, List.map_append, maxSessionSeqInData_append, Nat.max_assoc]
        obtain ⟨batch, hbatch, hpre⟩ := WalStorage.entriesIn_eq hnext
          (show next < min (next + chunkEntries) (storage.lastIndex + 1) by rw [chunkEntries]; omega)
          (Nat.min_le_right _ _) (some chunkBytes)
        refine Transition.bind_eq_ok.mpr ⟨batch, by rw [readTail, hbatch]; rfl, ?_⟩
        cases batch with
        | nil =>
            obtain ⟨e, hsingle, hpre⟩ := h.entriesIn_single hnext hle
            refine Transition.bind_eq_ok.mpr ⟨[e], by rw [readTail, hsingle]; rfl, ?_⟩
            exact hround [e] (List.cons_ne_nil e []) hpre
        | cons e es => exact hround (e :: es) (List.cons_ne_nil e es) hpre
      · rw [hdone (by omega)]
        exact congrArg Except.ok (Nat.max_zero maxSeq).symm

/-- The disk of a node shows a session of the client with a number at least `seq`. -/
def Shows (storage : WalStorage) (store : Store) (clientId seq : UInt64) : Prop :=
  (∃ key ∈ store.sessions.keys, key.clientId = clientId ∧ seq ≤ key.seqNo) ∨
    ∃ e ∈ storage.entries, ∃ key ∈ commandSession e.data, key.clientId = clientId ∧ seq ≤ key.seqNo

instance (storage : WalStorage) (store : Store) (clientId seq : UInt64) : Decidable (Shows storage store clientId seq) :=
  inferInstanceAs (Decidable (_ ∨ _))

theorem initialSeq_eq {storage : WalStorage} {store : Store} (haligned : storage.Aligned)
    (hmark : storage.compactedTo = WalStorage.watermark storage.snapshot) (hstore : restoredStore storage = .ok store)
    (clientId : UInt64) :
    initialSeq storage clientId =
      .ok (max (saturatingSucc (max (maxSessionSeq store.sessions clientId)
        (maxSessionSeqInData (storage.entries.map (·.data)) clientId))) 1) := by
  have hfrom : max (max storage.firstIndex (WalStorage.watermark storage.snapshot + 1)) 1 = storage.firstIndex := by
    rw [← hmark, WalStorage.firstIndex]
    omega
  have htail : logTailMaxSessionSeq storage (max storage.firstIndex (WalStorage.watermark storage.snapshot + 1)) clientId =
      .ok (maxSessionSeqInData (storage.entries.map (·.data)) clientId) := by
    rw [logTailMaxSessionSeq, hfrom, scanTail_eq haligned clientId 0 (Nat.le_refl _) (Nat.le_refl _), Nat.sub_self,
      List.drop_zero, Nat.zero_max]
  exact Transition.bind_eq_ok.mpr ⟨store, hstore, Transition.bind_eq_ok.mpr ⟨_, htail, rfl⟩⟩

theorem lt_maxU64 {x : UInt64} (h : x ≠ maxU64) : x.toNat < 2 ^ 64 - 1 :=
  Nat.lt_of_le_of_ne (UInt64.le_iff_toNat_le.mp (le_maxU64 x)) fun heq => h (UInt64.toNat_inj.mp heq)

/-- A new handle starts above every number its disk shows, but for the last one there is. -/
theorem lt_seq_of_shows {cfg : NodeConfig} {storage : WalStorage} {store : Store} {h : Handle} {seq : UInt64}
    (haligned : storage.Aligned) (hmark : storage.compactedTo = WalStorage.watermark storage.snapshot)
    (hstore : restoredStore storage = .ok store) (hh : cfg.newHandle storage = .ok h) (hseq : seq ≠ maxU64)
    (hshows : Shows storage store cfg.clientId seq) : seq < h.seq := by
  rw [NodeConfig.newHandle, initialSeq_eq haligned hmark hstore] at hh
  cases hh
  have hlt := lt_maxU64 hseq
  have hle : seq.toNat ≤ max (maxSessionSeq store.sessions cfg.clientId)
      (maxSessionSeqInData (storage.entries.map (·.data)) cfg.clientId) := by
    rcases hshows with ⟨key, hkey, hclient, hle⟩ | ⟨e, he, key, hkey, hclient, hle⟩
    · have hrecorded := le_maxSessionSeq (Std.ExtTreeMap.mem_keys.mp hkey)
      rw [hclient] at hrecorded
      rw [UInt64.le_iff_toNat_le] at hle
      omega
    · have hlogged : key.seqNo.toNat ≤ maxSessionSeqInData (storage.entries.map (·.data)) key.clientId :=
        le_maxSessionSeqInData (List.mem_map_of_mem he) hkey
      rw [hclient] at hlogged
      rw [UInt64.le_iff_toNat_le] at hle
      omega
  rw [UInt64.lt_iff_toNat_lt, saturatingSucc, UInt64.toNat_ofNat_of_lt' (show _ < 2 ^ 64 by omega)]
  omega

theorem clientId_newHandle {cfg : NodeConfig} {storage : WalStorage} {h : Handle} (hh : cfg.newHandle storage = .ok h) :
    h.clientId = cfg.clientId := by
  obtain ⟨seq, -, hh⟩ := Transition.bind_eq_ok.mp hh
  cases hh
  rfl

/-! ## The sessions a log leaves behind -/

/-- Applying an entry records no other session than its own. -/
theorem recorded_of_apply {st : Store} {index : UInt64} {cmd : Bytes} {session : SessionKey}
    {record : StateMachine.SessionRecord} (h : (st.apply index cmd).2.sessions[session]? = some record) :
    st.sessions[session]? = some record ∨ commandSession cmd = some session := by
  by_cases hindex : index = st.applied + 1
  · subst hindex
    rw [Store.apply_next] at h
    cases hdecode : StateMachine.Command.decode cmd with
    | error e =>
        rw [hdecode] at h
        exact .inl h
    | ok c =>
        rw [hdecode] at h
        cases c with
        | noop => exact .inl h
        | sessionGc sessions =>
            have h : (sessions.foldl (·.erase ·) st.sessions)[session]? = some record := h
            rw [OrdMap.getElem?_foldl_erase, Option.ite_none_left_eq_some] at h
            exact .inl h.2
        | write session' op =>
            have h : (st.write session' op).2.sessions[session]? = some record := h
            cases hrecord : st.sessions[session']? with
            | some record' =>
                rw [Store.write_of_recorded hrecord] at h
                exact .inl h
            | none =>
                rw [Store.write_of_fresh hrecord] at h
                replace h : (st.sessions.insert session' _)[session]? = some record := h
                rw [OrdMap.getElem?_insert] at h
                split at h
                · next heq => exact .inr (heq ▸ StateMachine.commandSession_of_decode hdecode)
                · exact .inl h
  · rw [Store.apply_of_index_ne hindex] at h
    exact .inl h

/-- A session on record is that of an entry of the log. -/
theorem recorded_of_runLog {log : List Bytes} {session : SessionKey} {record : StateMachine.SessionRecord}
    (h : (StateMachine.runLog log).2.sessions[session]? = some record) :
    ∃ cmd ∈ log, commandSession cmd = some session := by
  induction log using List.reverseRecOn with
  | nil => cases h
  | append_singleton log cmd ih =>
      rw [StateMachine.runLog_snoc] at h
      rcases recorded_of_apply h with hold | hnew
      · obtain ⟨cmd', hmem, hsession⟩ := ih hold
        exact ⟨cmd', List.mem_append_left _ hmem, hsession⟩
      · exact ⟨cmd, List.mem_append_right _ (List.mem_singleton_self cmd), hnew⟩

/-! ## The system -/

/-- A node in its cluster: the committed log, the commands of the node's handle that may still be committed,
the node's disk, and its handle while the process runs. -/
structure Cluster where
  committed : List Bytes
  outstanding : List Bytes
  dir : Dir
  handle : Option Handle

inductive Action where
  /-- A write of the handle, proposed here or forwarded. -/
  | write (op : Write)
  | commit (cmd : Bytes)
  /-- A proposal is lost for good. -/
  | lose (cmd : Bytes)
  /-- The node stores entries it receives, takes or installs a snapshot, or does neither. -/
  | persist (dir : Dir)
  | restart

namespace Cluster

/-- What the cluster commits is outstanding, or a command of someone else: no two handles share a client
id. -/
def MayCommit (cfg : NodeConfig) (s : Cluster) (cmd : Bytes) : Prop :=
  cmd ∈ s.outstanding ∨ ∀ seq, commandSession cmd ≠ some ⟨cfg.clientId, seq⟩

inductive Step (cfg : NodeConfig) (s : Cluster) : Action → Cluster → Prop where
  | write {op : Write} {h h' : Handle} {p : Proposal} (hhandle : s.handle = some h)
      (hissue : (h.issue op : Except (Forward.ArachneError Unit) (Proposal × Handle)) = .ok (p, h')) :
      Step cfg s (.write op) { s with outstanding := s.outstanding ++ [p.cmd], handle := some h' }
  | commit {cmd : Bytes} (hcmd : s.MayCommit cfg cmd) :
      Step cfg s (.commit cmd) { s with committed := s.committed ++ [cmd] }
  | lose (cmd : Bytes) : Step cfg s (.lose cmd) { s with outstanding := s.outstanding.erase cmd }
  | persist (dir : Dir) : Step cfg s (.persist dir) { s with dir }
  | restart {dir : Dir} {storage : WalStorage} {h : Handle} (hopen : WalStorage.openDir s.dir cfg.storage = (dir, .ok storage))
      (hnew : cfg.newHandle storage = .ok h) : Step cfg s .restart { s with dir, handle := some h }

/-- The session of the handle's next write is new: no committed command has it, and the state machine does
not know it. -/
def Fresh (s : Cluster) : Prop :=
  ∀ h, s.handle = some h → (∀ cmd ∈ s.committed, commandSession cmd ≠ some h.session) ∧
    (StateMachine.runLog s.committed).2.sessions[h.session]? = none

/-- The condition on a step: the numbers do not run out, and a restart finds on its disk a session at least as
high as every one of the client that is committed or may yet be. -/
def Careful (cfg : NodeConfig) (s : Cluster) : Action → Prop
  | .write _ => ∀ h ∈ s.handle, h.seq ≠ maxU64
  | .restart =>
    ∀ storage ∈ (WalStorage.openDir s.dir cfg.storage).2.toOption, ∀ store ∈ (restoredStore storage).toOption,
      ∀ cmd ∈ s.committed ++ s.outstanding, ∀ key ∈ commandSession cmd, key.clientId = cfg.clientId →
        Shows storage store cfg.clientId key.seqNo
  | _ => True

instance (cfg : NodeConfig) (s : Cluster) (a : Action) : Decidable (s.Careful cfg a) := by
  cases a <;> unfold Careful <;> infer_instance

def Initial (s : Cluster) : Prop := s.committed = [] ∧ s.outstanding = [] ∧ s.handle = none

/-- Every number in use is below the next one. -/
structure Numbered (cfg : NodeConfig) (s : Cluster) : Prop where
  clientId : ∀ h, s.handle = some h → h.clientId = cfg.clientId
  used : ∀ cmd ∈ s.committed ++ s.outstanding, ∀ seq, commandSession cmd = some ⟨cfg.clientId, seq⟩ →
    seq ≠ maxU64 ∧ ∀ h, s.handle = some h → seq < h.seq

theorem Numbered.write {cfg : NodeConfig} {s : Cluster} (hs : s.Numbered cfg) {op : Write} {h h' : Handle} {p : Proposal}
    (hhandle : s.handle = some h) (hseq : h.seq ≠ maxU64)
    (hissue : (h.issue op : Except (Forward.ArachneError Unit) (Proposal × Handle)) = .ok (p, h')) :
    Numbered cfg { s with outstanding := s.outstanding ++ [p.cmd], handle := some h' } := by
  obtain ⟨⟨⟩, -, hp⟩ := Transition.bind_eq_ok.mp hissue
  cases hp
  have hnext : h.advance.seq.toNat = h.seq.toNat + 1 := by
    have hlt := lt_maxU64 hseq
    rw [Handle.advance, UInt64.toNat_add]
    exact Nat.mod_eq_of_lt (show h.seq.toNat + 1 < 2 ^ 64 by omega)
  refine ⟨fun _ heq => Option.some.inj heq ▸ hs.clientId h hhandle, fun cmd hcmd seq hsession => ?_⟩
  rw [← List.append_assoc, List.mem_append, List.mem_singleton] at hcmd
  rcases hcmd with hold | rfl
  · obtain ⟨hne, hlt⟩ := hs.used cmd hold seq hsession
    refine ⟨hne, fun _ heq => ?_⟩
    obtain rfl := Option.some.inj heq
    have := hlt h hhandle
    rw [UInt64.lt_iff_toNat_lt] at this ⊢
    omega
  · rw [StateMachine.commandSession_encode, Option.some.injEq, Handle.session, SessionKey.mk.injEq] at hsession
    obtain ⟨-, rfl⟩ := hsession
    refine ⟨hseq, fun _ heq => ?_⟩
    obtain rfl := Option.some.inj heq
    rw [UInt64.lt_iff_toNat_lt]
    omega

theorem Numbered.restart {cfg : NodeConfig} {s : Cluster} (hs : s.Numbered cfg) (hcareful : s.Careful cfg .restart)
    {dir : Dir} {storage : WalStorage} {h : Handle} (hopen : WalStorage.openDir s.dir cfg.storage = (dir, .ok storage))
    (hnew : cfg.newHandle storage = .ok h) : Numbered cfg { s with dir, handle := some h } := by
  obtain ⟨haligned, hmark⟩ := Storage.aligned_of_openDir hopen
  obtain ⟨store, hstore⟩ : ∃ store, restoredStore storage = .ok store := by
    obtain ⟨seq, hseq, -⟩ := Transition.bind_eq_ok.mp hnew
    obtain ⟨store, hstore, -⟩ := Transition.bind_eq_ok.mp hseq
    exact ⟨store, hstore⟩
  refine ⟨fun _ heq => Option.some.inj heq ▸ clientId_newHandle hnew, fun cmd hcmd seq hsession => ?_⟩
  have hne := (hs.used cmd hcmd seq hsession).1
  refine ⟨hne, fun _ heq => ?_⟩
  obtain rfl := Option.some.inj heq
  refine lt_seq_of_shows haligned hmark hstore hnew hne (hcareful storage ?_ store ?_ cmd hcmd _ hsession rfl)
  · rw [hopen]
    rfl
  · rw [hstore]
    rfl

theorem Numbered.step {cfg : NodeConfig} {s s' : Cluster} {a : Action} (hs : s.Numbered cfg) (hcareful : s.Careful cfg a)
    (hstep : s.Step cfg a s') : s'.Numbered cfg := by
  cases hstep with
  | write hhandle hissue => exact hs.write hhandle (hcareful _ hhandle) hissue
  | @commit cmd hcmd =>
      refine ⟨hs.clientId, fun cmd' hmem seq hsession => ?_⟩
      rw [List.append_assoc, List.mem_append, List.mem_append, List.mem_singleton] at hmem
      rcases hmem with hold | rfl | hold
      · exact hs.used cmd' (List.mem_append_left _ hold) seq hsession
      · -- a command of the client is one it is still waiting for
        exact hs.used cmd' (List.mem_append_right _ (hcmd.resolve_right fun h => h seq hsession)) seq hsession
      · exact hs.used cmd' (List.mem_append_right _ hold) seq hsession
  | lose cmd =>
      refine ⟨hs.clientId, fun cmd' hmem seq hsession => hs.used cmd' ?_ seq hsession⟩
      exact List.mem_append.mpr ((List.mem_append.mp hmem).imp_right List.mem_of_mem_erase)
  | persist dir => exact ⟨hs.clientId, hs.used⟩
  | restart hopen hnew => exact hs.restart hcareful hopen hnew

theorem Numbered.fresh {cfg : NodeConfig} {s : Cluster} (hs : s.Numbered cfg) : s.Fresh := by
  intro h hhandle
  have hunused : ∀ cmd ∈ s.committed, commandSession cmd ≠ some h.session := by
    intro cmd hcmd hsession
    rw [Handle.session, hs.clientId h hhandle] at hsession
    have hlt := (hs.used cmd (List.mem_append_left _ hcmd) h.seq hsession).2 h hhandle
    exact UInt64.lt_irrefl h.seq hlt
  refine ⟨hunused, ?_⟩
  cases hrecord : (StateMachine.runLog s.committed).2.sessions[h.session]? with
  | none => rfl
  | some record =>
      obtain ⟨cmd, hcmd, hsession⟩ := recorded_of_runLog hrecord
      exact absurd hsession (hunused cmd hcmd)

end Cluster

/-- **No number is used twice**, in every run whose restarts find the numbers in use on the node's own disk. -/
theorem no_session_reused {cfg : NodeConfig} {actions : List Action} {s : Cluster}
    (h : Transition.Run Cluster.Initial (fun s a s' => s.Careful cfg a ∧ s.Step cfg a s') actions s) : s.Fresh := by
  refine Cluster.Numbered.fresh (Transition.Run.invariant (P := fun _ s => s.Numbered cfg) ?_ ?_ h)
  · rintro s ⟨hcommitted, houtstanding, hhandle⟩
    refine ⟨fun h heq => ?_, fun cmd hcmd => ?_⟩
    · rw [hhandle] at heq
      cases heq
    · rw [hcommitted, houtstanding] at hcmd
      cases hcmd
  · exact fun _ s a s' _ hs hstep => hs.step hstep.1 hstep.2

/-! ### A node that lags -/

/-- Perform an action; a foreign commit is not needed here. -/
def Cluster.exec (cfg : NodeConfig) (s : Cluster) : Action → Option Cluster
  | .write op =>
    match s.handle with
    | none => none
    | some h =>
      match (h.issue op : Except (Forward.ArachneError Unit) (Proposal × Handle)) with
      | .error _ => none
      | .ok (p, h') => some { s with outstanding := s.outstanding ++ [p.cmd], handle := some h' }
  | .commit cmd => if cmd ∈ s.outstanding then some { s with committed := s.committed ++ [cmd] } else none
  | .lose cmd => some { s with outstanding := s.outstanding.erase cmd }
  | .persist dir => some { s with dir }
  | .restart =>
    match WalStorage.openDir s.dir cfg.storage with
    | (_, .error _) => none
    | (dir, .ok storage) =>
      match cfg.newHandle storage with
      | .error _ => none
      | .ok h => some { s with dir, handle := some h }

theorem Cluster.step_of_exec {cfg : NodeConfig} {s s' : Cluster} {a : Action} (h : s.exec cfg a = some s') : s.Step cfg a s' := by
  cases a with
  | write op =>
      simp only [exec] at h
      split at h
      · cases h
      · next hhandle =>
          split at h
          · cases h
          · next hissue =>
              cases h
              exact .write hhandle hissue
  | commit cmd =>
      obtain ⟨hmem, h⟩ := Option.ite_none_right_eq_some.mp h
      cases h
      exact .commit (.inl hmem)
  | lose cmd =>
      cases h
      exact .lose cmd
  | persist dir =>
      cases h
      exact .persist dir
  | restart =>
      simp only [exec] at h
      split at h
      · cases h
      · next hopen =>
          split at h
          · cases h
          · next hnew =>
              cases h
              exact .restart hopen hnew

def sampleNode : NodeConfig where
  nodeId := "n1"
  counter := 0
  storage := { clusterId := "c", nodeId := "n1", config := { fsyncPolicy := .always, segmentBytes := 1000 }, createdAtMillis := 0 }
  maxKeyBytes := 4096
  maxValueBytes := 1048576

def emptyCluster : Cluster := { committed := [], outstanding := [], dir := .empty, handle := none }

/-- The put the node makes first. -/
def firstPut : Bytes := StateMachine.encodePut ⟨sampleNode.clientId, 1⟩ [1] [10]

/-- The disk of the node once it has stored the put at index 1. -/
def replicatedDir : Dir :=
  match (WalStorage.openDir .empty sampleNode.storage).2 with
  | .error _ => .empty
  | .ok storage =>
    match storage.append [{ index := 1, term := 1, entryType := .entry, data := firstPut }] with
    | .error _ => .empty
    | .ok storage => storage.dir

/-- A put that the node has stored before it restarts. -/
def replicatedRun : List Action :=
  [.restart, .write (.put [1] [10]), .commit firstPut, .persist replicatedDir, .restart]

theorem no_session_reused_replicated : ∃ s, Transition.Run Cluster.Initial
    (fun s a s' => s.Careful sampleNode a ∧ s.Step sampleNode a s') replicatedRun s ∧
    s.committed = [firstPut] ∧ s.handle.map (·.seq) = some 2 ∧ s.Fresh := by
  have heval : (replicatedRun.foldlM
      (fun s a => if Cluster.Careful sampleNode s a then s.exec sampleNode a else none) emptyCluster).any fun s =>
      s.committed = [firstPut] ∧ s.handle.map (·.seq) = some 2 := by
    decide +kernel
  obtain ⟨s, hs, hp⟩ := (Option.any_eq_true _ _).mp heval
  obtain ⟨hcommitted, hseq⟩ := of_decide_eq_true hp
  have hrun : Transition.Run Cluster.Initial (fun s a s' => s.Careful sampleNode a ∧ s.Step sampleNode a s')
      replicatedRun s := by
    refine Transition.Run.of_foldlM (fun s a s' h => ?_) ⟨rfl, rfl, rfl⟩ hs
    obtain ⟨hcareful, h⟩ := Option.ite_none_right_eq_some.mp h
    exact ⟨hcareful, Cluster.step_of_exec h⟩
  exact ⟨s, hrun, hcommitted, hseq, no_session_reused hrun⟩

/-- The same put, forwarded to a leader and committed there before this node has stored anything. -/
def laggingRun : List Action := [.restart, .write (.put [1] [10]), .commit firstPut, .restart]

/-- The restarted handle issues the session of the committed put again. A put of another value under it is
answered with the outcome of the first, and changes nothing. -/
theorem session_reused_lagging : ∃ s h, Transition.Run Cluster.Initial (fun s a s' => s.Step sampleNode a s') laggingRun s ∧
    s.handle = some h ∧ s.committed = [firstPut] ∧ commandSession firstPut = some h.session ∧ ¬ s.Fresh ∧
    (∃ p h', (h.issue (.put [1] [20]) : Except (Forward.ArachneError Unit) (Proposal × Handle)) = .ok (p, h') ∧
      (StateMachine.runLog [firstPut, p.cmd]).1 =
        [.ok ⟨.value [10], 1, [.put 1 [1] [10]]⟩, .ok ⟨.value [10], 1, []⟩]) := by
  have heval : (laggingRun.foldlM (Cluster.exec sampleNode) emptyCluster).any fun s =>
      s.committed = [firstPut] ∧ s.handle =
        some { clientId := sampleNode.clientId, seq := 1, maxKeyBytes := 4096, maxValueBytes := 1048576 } := by
    decide +kernel
  obtain ⟨s, hs, hp⟩ := (Option.any_eq_true _ _).mp heval
  obtain ⟨hcommitted, hhandle⟩ := of_decide_eq_true hp
  have hsession : commandSession firstPut = some ⟨sampleNode.clientId, 1⟩ := by decide +kernel
  refine ⟨s, _, Transition.Run.of_foldlM (fun s a s' => Cluster.step_of_exec) ⟨rfl, rfl, rfl⟩ hs, hhandle, hcommitted,
    hsession, fun hfresh => ?_, ⟨_, _, rfl, by decide +kernel⟩⟩
  refine (hfresh _ hhandle).1 firstPut ?_ hsession
  rw [hcommitted]
  exact List.mem_singleton_self firstPut

end Arachne.Runtime
