import Arachne.Runtime.Pipeline
import Arachne.Runtime.Restart
import Arachne.StateMachine.Encode
import Arachne.StateMachine.Session

/-! # Two session tables

The replicated table in the state machine makes a retry harmless. Next to it every actor has a local one, with the time a
session was last used, which decides how a retry is treated (`session_band`) and which sessions the leader proposes to
collect. The two are kept in step by different events: an entry that is handed over enters its session into both, a
collection entry of the log leaves the local table alone, and the sweep of the local table and the leader's own
collections leave the replicated one alone. Snapshots replace only the replicated one.

`SessionActor` is an actor with its local table and the state machine as it will be once everything handed over is applied.
`Spares` is when the local table never vouches for a session that is gone, `Keeps` when no session is forgotten by the
local table and by the collections alike. -/

namespace Arachne.Runtime.Pipeline

open Codec (Bytes)
open StateMachine (SessionKey Store Command Write Collects commandSession)
open Storage (Snapshot)

variable {env : Env}

/-! ## The actor -/

/-- `SESSION_GC_BATCH`. -/
def sessionGcBatch : Nat := 1000

/-- `session_band`. -/
def Book.sessionBand (env : Env) (b : Book) (session : SessionKey) : SessionBand :=
  match b.sessionClock with
  | none => .live
  | some now =>
    if env.sessionTtlMs = 0 then .live
    else
      match b.sessions session with
      | none => .fresh
      | some last =>
        let elapsed := now - last
        if elapsed ≤ env.sessionTtlMs then .live
        else if elapsed ≤ env.sessionTtlMs + env.sessionGraceMs then .grace
        else .fresh

/-- It is the band `start_proposal` goes by. -/
theorem Book.sessionBand_eq {Addr : Type} {a : Proposer Addr} {b : Book} (hclock : a.sessionClock = b.sessionClock)
    (httl : a.sessionTtlMs = env.sessionTtlMs) (hgrace : a.sessionGraceMs = env.sessionGraceMs)
    (hsessions : a.sessions = b.sessions) (session : SessionKey) : a.sessionBand session = b.sessionBand env session := by
  rw [Proposer.sessionBand, hclock, httl, hgrace, hsessions]
  rfl

/-- The session is in the local table, and taken to be live. -/
def Book.Live (env : Env) (b : Book) (session : SessionKey) : Prop :=
  (b.sessions session).isSome ∧ b.sessionBand env session = .live

instance (b : Book) (session : SessionKey) : Decidable (b.Live env session) := inferInstanceAs (Decidable (_ ∧ _))

/-- The session is in the local table, and was not used for the whole window. -/
def Book.Expired (env : Env) (b : Book) (now : Nat) (session : SessionKey) : Prop :=
  ∃ last ∈ b.sessions session, now - last > env.sessionTtlMs + env.sessionGraceMs

instance (b : Book) (now : Nat) (session : SessionKey) : Decidable (b.Expired env now session) :=
  inferInstanceAs (Decidable (∃ last ∈ b.sessions session, _))

structure SessionActor where
  book : Book
  /-- When to propose the next collection. -/
  nextSessionGc : Nat
  /-- The sessions of the entries handed over: the local table has no others. -/
  keys : List SessionKey
  /-- The state machine, with everything handed over applied. -/
  sm : Store
  /-- The collections this actor has proposed, the latest first. -/
  proposed : List (List SessionKey)

namespace SessionActor

/-- The actor of a process that starts with the state machine `sm`. -/
def start (sm : Store) (clock : Option Nat) : SessionActor where
  book := (Sys.start sm ⟨.default, 0⟩ clock).actor.book
  nextSessionGc := 0
  keys := []
  sm
  proposed := []

/-- A committed entry is handed over. There is no result if the apply task will stop at it. -/
def hand (env : Env) (s : SessionActor) (data : Bytes) : Option SessionActor :=
  match s.sm.apply (s.sm.applied + 1) data with
  | (.error _, _) => none
  | (.ok _, sm) =>
    -- The local table notes the entry's own session. What a collection names stays in it.
    some { s with
      book := s.book.enqueue env (s.sm.applied + 1, data)
      keys := (commandSession data).toList ++ s.keys
      sm }

/-- An installed snapshot is handed over. -/
def install (s : SessionActor) (snapshot : Snapshot) : Option SessionActor :=
  match s.sm.restore snapshot.data with
  | (.error _, _) => none
  | (.ok (), sm) => some { s with book := s.book.noteInstall (some snapshot), sm }

/-- What an iteration over the local table may collect: up to a whole batch of expired sessions, in any order. -/
def Collection (env : Env) (s : SessionActor) (now : Nat) (expired : List SessionKey) : Prop :=
  expired.Nodup ∧ (∀ session ∈ expired, s.book.Expired env now session) ∧ expired.length ≤ sessionGcBatch ∧
    (expired.length = sessionGcBatch ∨ ∀ session ∈ s.keys, s.book.Expired env now session → session ∈ expired)

instance (s : SessionActor) (now : Nat) (expired : List SessionKey) : Decidable (s.Collection env now expired) :=
  inferInstanceAs (Decidable (_ ∧ _))

/-- `maybe_collect_sessions`: `leads` is whether the node leads, `accepted` whether raft takes the proposal. -/
def maybeCollectSessions (env : Env) (s : SessionActor) (leads : Bool) (expired : List SessionKey) (accepted : Bool) :
    Option SessionActor :=
  match s.book.sessionClock with
  | none => some s
  | some now =>
    if env.sessionTtlMs = 0 ∨ leads = false then some s
    else if now < s.nextSessionGc then some s
    else if s.Collection env now expired then
      let s := { s with nextSessionGc := now + max env.sessionTtlMs 1 }
      if expired = [] ∨ accepted = false then some s
      else
        -- On its way to every replica, so that the next round need not name these again.
        some { s with
          book.sessions := fun session => if session ∈ expired then none else s.book.sessions session
          proposed := expired :: s.proposed }
    else none

end SessionActor

inductive SessionAction where
  /-- The clock moves on. -/
  | tick (now : Nat)
  | hand (data : Bytes)
  | install (snapshot : Snapshot)
  | collect (leads : Bool) (expired : List SessionKey) (accepted : Bool)
  deriving DecidableEq

namespace SessionActor

/-- What the action does, if it is possible. The clock is monotone. -/
def exec (env : Env) (s : SessionActor) : SessionAction → Option SessionActor
  | .tick now =>
    match s.book.sessionClock with
    | none => none
    | some before => if before ≤ now then some { s with book.sessionClock := some now } else none
  | .hand data => s.hand env data
  | .install snapshot => s.install snapshot
  | .collect leads expired accepted => s.maybeCollectSessions env leads expired accepted

end SessionActor

/-- A run of the actor from a start of the process, each action meeting `ok` in the state it starts from. -/
def SessionRun (env : Env) (ok : SessionActor → SessionAction → Prop) (first : SessionActor) :
    List SessionAction → SessionActor → Prop :=
  Transition.Run (· = first) fun s a s' => ok s a ∧ s.exec env a = some s'

/-- Perform the actions in order, as long as each meets `ok` and is possible. -/
def runSessions (env : Env) (ok : SessionActor → SessionAction → Prop) [∀ s a, Decidable (ok s a)] (first : SessionActor)
    (actions : List SessionAction) : Option SessionActor :=
  actions.foldlM (fun s a => if ok s a then s.exec env a else none) first

theorem SessionRun.of_runSessions {ok : SessionActor → SessionAction → Prop} [∀ s a, Decidable (ok s a)]
    {first s : SessionActor} {actions : List SessionAction} (h : runSessions env ok first actions = some s) :
    SessionRun env ok first actions s := by
  refine Transition.Run.of_foldlM (fun s a s' hs => ?_) rfl h
  split_ifs at hs with hok
  exact ⟨hok, hs⟩

/-! ## The local table -/

namespace Book

variable {b b' : Book} {k session : SessionKey} {entry : UInt64 × Bytes}

theorem sessionClock_noteSession (b : Book) (session : SessionKey) :
    (b.noteSession env session).sessionClock = b.sessionClock := by
  unfold noteSession
  split
  · rfl
  · dsimp only
    split_ifs
    · rfl
    · rfl
    · rfl

/-- A session is noted with the time, and others are at most swept out. -/
theorem sessions_noteSession (hne : k ≠ session) :
    (b.noteSession env session).sessions k = b.sessions k ∨
      (b.noteSession env session).sessions k = none ∧
        ∃ now ∈ b.sessionClock, b.nextSessionSweep ≤ now ∧
          ∃ last ∈ b.sessions k, ¬ now - last ≤ max (env.sessionTtlMs + env.sessionGraceMs) 1 := by
  unfold noteSession
  split
  · exact .inl rfl
  · next now hclock =>
      dsimp only
      split_ifs with httl hsweep
      · exact .inl rfl
      · simp only [if_neg hne]
        cases hk : b.sessions k with
        | none => exact .inl rfl
        | some last =>
            rw [Option.filter_some]
            split_ifs with hwindow
            · exact .inl rfl
            · exact .inr ⟨rfl, now, hclock, hsweep, last, rfl, fun hle => hwindow (decide_eq_true hle)⟩
      · exact .inl (if_neg hne)

theorem sessions_noteSession_self {now : Nat} (hclock : b.sessionClock = some now) (httl : env.sessionTtlMs ≠ 0) :
    (b.noteSession env session).sessions session = some now := by
  unfold noteSession
  rw [hclock]
  dsimp only
  rw [if_neg httl]
  exact if_pos rfl

theorem sessionClock_enqueue (b : Book) (entry : UInt64 × Bytes) :
    (b.enqueue env entry).sessionClock = b.sessionClock := by
  unfold enqueue
  dsimp only
  split
  · exact sessionClock_noteSession _ _
  · rfl

/-- The same for an entry, whose session, if it has one, is noted. -/
theorem sessions_enqueue (b : Book) (entry : UInt64 × Bytes) (hne : commandSession entry.2 ≠ some k) :
    (b.enqueue env entry).sessions k = b.sessions k ∨
      (b.enqueue env entry).sessions k = none ∧ (commandSession entry.2).isSome ∧
        ∃ now ∈ b.sessionClock, b.nextSessionSweep ≤ now ∧
          ∃ last ∈ b.sessions k, ¬ now - last ≤ max (env.sessionTtlMs + env.sessionGraceMs) 1 := by
  unfold enqueue
  dsimp only
  split
  · next session hsession =>
      have hk : k ≠ session := by
        rintro rfl
        exact hne hsession
      rcases sessions_noteSession (b := b.attribute session entry.1) hk with hsame | ⟨hnone, hswept⟩
      · exact .inl hsame
      · exact .inr ⟨hnone, hsession ▸ rfl, hswept⟩
  · exact .inl rfl

/-- What an entry leaves of the other sessions is unchanged. -/
theorem sessions_enqueue_of_isSome (hne : commandSession entry.2 ≠ some k)
    (h : ((b.enqueue env entry).sessions k).isSome) : (b.enqueue env entry).sessions k = b.sessions k := by
  rcases sessions_enqueue b entry hne with hsame | ⟨hnone, -⟩
  · exact hsame
  · rw [hnone] at h
    cases h

theorem sessions_enqueue_self {now : Nat} (hsession : commandSession entry.2 = some session)
    (hclock : b.sessionClock = some now) (httl : env.sessionTtlMs ≠ 0) :
    (b.enqueue env entry).sessions session = some now := by
  unfold enqueue
  rw [hsession]
  exact sessions_noteSession_self (b := b.attribute session entry.1) hclock httl

theorem sessionBand_congr (hclock : b'.sessionClock = b.sessionClock) (hk : b'.sessions k = b.sessions k) :
    b'.sessionBand env k = b.sessionBand env k := by
  rw [sessionBand, sessionBand, hclock, hk]

theorem sessionBand_eq_live {now last : Nat} (hclock : b.sessionClock = some now) (hlast : b.sessions k = some last) :
    b.sessionBand env k = .live ↔ env.sessionTtlMs = 0 ∨ now - last ≤ env.sessionTtlMs := by
  rw [sessionBand, hclock]
  dsimp only
  rw [hlast]
  dsimp only
  split_ifs with httl hle
  · simp [httl]
  · simp [hle]
  · simp [httl, hle]
  · simp [httl, hle]

/-- What an entry makes live is its own session. -/
theorem Live.of_enqueue (h : (b.enqueue env entry).Live env k) : b.Live env k ∨ commandSession entry.2 = some k := by
  by_cases hne : commandSession entry.2 = some k
  · exact .inr hne
  · refine .inl ?_
    have hk := sessions_enqueue_of_isSome hne h.1
    refine ⟨hk ▸ h.1, ?_⟩
    rw [← h.2]
    exact (sessionBand_congr (sessionClock_enqueue b entry) hk).symm

/-- A session that is live later was live before. -/
theorem Live.of_tick {before now : Nat} (hclock : b.sessionClock = some before) (hle : before ≤ now)
    (h : { b with sessionClock := some now }.Live env k) : b.Live env k := by
  obtain ⟨hsome, hband⟩ := h
  refine ⟨hsome, ?_⟩
  obtain ⟨last, hlast⟩ := Option.isSome_iff_exists.mp hsome
  rw [sessionBand_eq_live rfl hlast] at hband
  rw [sessionBand_eq_live hclock hlast]
  exact hband.imp_right (Nat.sub_le_sub_right hle last).trans

end Book

/-! ## The replicated table -/

/-- Apply commands one after the other. -/
def applyAll (st : Store) (cmds : List Bytes) : Store := cmds.foldl (fun st cmd => (st.apply (st.applied + 1) cmd).2) st

variable {st : Store} {k : SessionKey}

/-- Only a collection removes a session. -/
theorem recorded_apply {cmd : Bytes} (h : (st.sessions[k]?).isSome) (hnot : ¬ Collects k cmd) :
    ((st.apply (st.applied + 1) cmd).2.sessions[k]?).isSome := by
  rw [Store.apply_next]
  cases hdecode : Command.decode cmd with
  | error e => exact h
  | ok c =>
      cases c with
      | noop => exact h
      | sessionGc sessions =>
          show ((sessions.foldl (·.erase ·) st.sessions)[k]?).isSome
          rw [OrdMap.getElem?_foldl_erase, if_neg fun hmem => hnot ⟨sessions, hdecode, hmem⟩]
          exact h
      | write session op =>
          show ((st.write session op).2.sessions[k]?).isSome
          cases hrecord : st.sessions[session]? with
          | some record =>
              rw [Store.write_of_recorded hrecord]
              exact h
          | none =>
              rw [Store.write_of_fresh hrecord]
              show ((st.sessions.insert session _)[k]?).isSome
              rw [OrdMap.getElem?_insert]
              split_ifs
              · rfl
              · exact h

theorem recorded_applyAll {cmds : List Bytes} (h : (st.sessions[k]?).isSome) (hnot : ∀ cmd ∈ cmds, ¬ Collects k cmd) :
    ((applyAll st cmds).sessions[k]?).isSome := by
  induction cmds generalizing st with
  | nil => exact h
  | cons cmd cmds ih =>
      rw [List.forall_mem_cons] at hnot
      exact ih (recorded_apply h hnot.1) hnot.2

/-- A write is recorded under its session. -/
theorem recorded_write {cmd : Bytes} {op : Write} (h : Command.decode cmd = .ok (.write k op)) :
    ((st.apply (st.applied + 1) cmd).2.sessions[k]?).isSome := by
  rw [Store.apply_next, h]
  show ((st.write k op).2.sessions[k]?).isSome
  cases hrecord : st.sessions[k]? with
  | some record =>
      rw [Store.write_of_recorded hrecord, hrecord]
      rfl
  | none =>
      rw [Store.write_of_fresh hrecord]
      show ((st.sessions.insert k _)[k]?).isSome
      rw [OrdMap.getElem?_insert, if_pos rfl]
      rfl

/-! ## Steps -/

namespace SessionActor

variable {s s' : SessionActor} {a : SessionAction}

/-- **Handing an entry over**: it is one the state machine performs. -/
theorem hand_eq_some {data : Bytes} (h : s.hand env data = some s') :
    (∃ c, Command.decode data = .ok c) ∧
      s' = { s with
        book := s.book.enqueue env (s.sm.applied + 1, data)
        keys := (commandSession data).toList ++ s.keys
        sm := (s.sm.apply (s.sm.applied + 1) data).2 } := by
  unfold hand at h
  split at h
  · cases h
  · next applied sm happly =>
      obtain ⟨-, c, hdecode, -⟩ := Store.of_apply_ok happly
      rw [happly]
      exact ⟨⟨c, hdecode⟩, (Option.some.inj h).symm⟩

theorem install_eq_some {snapshot : Snapshot} (h : s.install snapshot = some s') :
    s' = { s with book := s.book.noteInstall (some snapshot), sm := (s.sm.restore snapshot.data).2 } := by
  unfold install at h
  split at h
  · cases h
  · next sm hrestore =>
      rw [hrestore]
      exact (Option.some.inj h).symm

/-- **A round of collection**: nothing but the timer changes, or the sessions collected leave the local table. -/
theorem collect_eq_some {leads accepted : Bool} {expired : List SessionKey}
    (h : s.maybeCollectSessions env leads expired accepted = some s') :
    (∃ next, s' = { s with nextSessionGc := next }) ∨
      ∃ next, s' = { s with
        nextSessionGc := next
        book.sessions := fun session => if session ∈ expired then none else s.book.sessions session
        proposed := expired :: s.proposed } := by
  unfold maybeCollectSessions at h
  split at h
  · exact .inl ⟨s.nextSessionGc, (Option.some.inj h).symm⟩
  · dsimp only at h
    split_ifs at h
    · exact .inl ⟨s.nextSessionGc, (Option.some.inj h).symm⟩
    · exact .inl ⟨s.nextSessionGc, (Option.some.inj h).symm⟩
    · exact .inl ⟨_, (Option.some.inj h).symm⟩
    · exact .inr ⟨_, (Option.some.inj h).symm⟩

/-- What a round of collection leaves in the local table is unchanged. -/
theorem sessions_of_collected {expired : List SessionKey} {session : SessionKey}
    (h : (if session ∈ expired then none else s.book.sessions session).isSome) :
    (if session ∈ expired then none else s.book.sessions session) = s.book.sessions session := by
  split_ifs at h ⊢
  · cases h
  · rfl

theorem tick_eq_some {now : Nat} (h : s.exec env (.tick now) = some s') :
    ∃ before, s.book.sessionClock = some before ∧ before ≤ now ∧ s' = { s with book.sessionClock := some now } := by
  simp only [exec] at h
  split at h
  · cases h
  · next before hclock =>
      split_ifs at h with hle
      exact ⟨before, hclock, hle, (Option.some.inj h).symm⟩

/-! ## Live sessions -/

/-- The sessions a command collects. -/
def collectedBy (cmd : Bytes) : List SessionKey :=
  match Command.decode cmd with
  | .ok (.sessionGc sessions) => sessions
  | _ => []

/-- A collection entry names no session that is live here when it is handed over, and a snapshot holds all that are. -/
def Spares (env : Env) (s : SessionActor) : SessionAction → Prop
  | .hand data => ∀ session ∈ collectedBy data, ¬ s.book.Live env session
  | .install snapshot => ∀ session ∈ s.keys, s.book.Live env session →
      ((s.sm.restore snapshot.data).2.sessions[session]?).isSome
  | _ => True

instance : Decidable (s.Spares env a) :=
  match a with
  | .hand data => inferInstanceAs (Decidable (∀ session ∈ collectedBy data, ¬ s.book.Live env session))
  | .install snapshot => inferInstanceAs (Decidable (∀ session ∈ s.keys, s.book.Live env session →
      ((s.sm.restore snapshot.data).2.sessions[session]?).isSome))
  | .tick _ | .collect _ _ _ => .isTrue trivial

/-- The local table has only the sessions of entries that were handed over. -/
def Known (s : SessionActor) : Prop := ∀ session, (s.book.sessions session).isSome → session ∈ s.keys

theorem Known.exec (h : s.Known) (hok : s.exec env a = some s') : s'.Known := by
  cases a with
  | tick now =>
      obtain ⟨before, -, -, rfl⟩ := tick_eq_some hok
      exact h
  | hand data =>
      obtain ⟨-, rfl⟩ := hand_eq_some hok
      intro session hsession
      by_cases hown : commandSession data = some session
      · refine List.mem_append_left _ ?_
        rw [hown]
        exact List.mem_singleton.mpr rfl
      · refine List.mem_append_right _ (h session ?_)
        exact Book.sessions_enqueue_of_isSome hown hsession ▸ hsession
  | install snapshot =>
      obtain rfl := install_eq_some hok
      exact h
  | collect leads expired accepted =>
      rcases collect_eq_some hok with ⟨next, rfl⟩ | ⟨next, rfl⟩
      · exact h
      · intro session hsession
        exact h session (sessions_of_collected hsession ▸ hsession)

/-- What is live here is recorded in the state machine. -/
def Vouched (env : Env) (s : SessionActor) : Prop :=
  ∀ session, s.book.Live env session → (s.sm.sessions[session]?).isSome

theorem Vouched.exec (h : s.Vouched env) (hknown : s.Known) (hspares : s.Spares env a) (hok : s.exec env a = some s') :
    s'.Vouched env := by
  intro session hlive
  cases a with
  | tick now =>
      obtain ⟨before, hclock, hle, rfl⟩ := tick_eq_some hok
      exact h session (.of_tick hclock hle hlive)
  | hand data =>
      obtain ⟨⟨c, hdecode⟩, rfl⟩ := hand_eq_some hok
      rcases Book.Live.of_enqueue hlive with hlive | hown
      · -- it was live before, and the entry does not collect it
        refine recorded_apply (h session hlive) ?_
        rintro ⟨sessions, hgc, hmem⟩
        refine hspares session ?_ hlive
        rw [collectedBy, hgc]
        exact hmem
      · -- the entry is its own write
        obtain ⟨op, rfl⟩ := StateMachine.eq_write_of_commandSession hown hdecode
        exact recorded_write hdecode
  | install snapshot =>
      obtain rfl := install_eq_some hok
      exact hspares session (hknown session hlive.1) hlive
  | collect leads expired accepted =>
      rcases collect_eq_some hok with ⟨next, rfl⟩ | ⟨next, rfl⟩
      · exact h session hlive
      · have hsame := sessions_of_collected hlive.1
        refine h session ⟨hsame ▸ hlive.1, Eq.trans (Eq.symm ?_) hlive.2⟩
        exact Book.sessionBand_congr rfl hsame

end SessionActor

/-- **A live session is still deduplicated** in every run whose steps spare the live sessions: it is recorded in the state
machine once everything handed over is applied, and a retry behind any further entries that do not collect it changes
nothing and is answered from the record. -/
theorem live_session_deduplicated {sm : Store} {clock : Option Nat} {actions : List SessionAction} {s : SessionActor}
    (hrun : SessionRun env (fun s a => s.Spares env a) (.start sm clock) actions s) {session : SessionKey}
    (hlocal : (s.book.sessions session).isSome) (hlive : s.book.sessionBand env session = .live) :
    (s.sm.sessions[session]?).isSome ∧
      ∀ between : List Bytes, (∀ cmd ∈ between, ¬ Collects session cmd) → ∀ retry op,
        Command.decode retry = .ok (.write session op) →
        ∃ record, (applyAll s.sm between).sessions[session]? = some record ∧
          (applyAll s.sm between).apply ((applyAll s.sm between).applied + 1) retry =
            (.ok ⟨op.replayed record.outcome, record.index, []⟩,
              { applyAll s.sm between with applied := (applyAll s.sm between).applied + 1 }) := by
  have hinv : s.Known ∧ s.Vouched env := by
    refine hrun.invariant (P := fun _ s => s.Known ∧ s.Vouched env) ?_ ?_
    · rintro _ rfl
      refine ⟨fun session hsession => ?_, fun session hlive => ?_⟩
      · cases hsession
      · cases hlive.1
    · rintro _ s a s' - ⟨hknown, hvouched⟩ ⟨hspares, hok⟩
      exact ⟨hknown.exec hok, hvouched.exec hknown hspares hok⟩
  have hrecorded := hinv.2 session ⟨hlocal, hlive⟩
  refine ⟨hrecorded, fun between hnot retry op hdecode => ?_⟩
  obtain ⟨record, hrecord⟩ := Option.isSome_iff_exists.mp (recorded_applyAll hrecorded hnot)
  refine ⟨record, hrecord, ?_⟩
  rw [Store.apply_next, hdecode]
  show (Except.ok ((applyAll s.sm between).write session op).1, ((applyAll s.sm between).write session op).2) = _
  rw [Store.write_of_recorded hrecord]

/-- Sessions live ten milliseconds, with a grace period of five. -/
def brief : Env where
  capacity := 4
  snapshotThresholdBytes := 0
  sessionTtlMs := 10
  sessionGraceMs := 5
  parseConfChange _ := none
  parseConfChangeV2 _ := none
  raftApply _ _ := none

/-- The first session expires and is collected, while a second one is in use. -/
def collectingActions : List SessionAction :=
  [ .collect true [] true, .hand (StateMachine.encodePut ⟨1, 1⟩ [7] [1]), .tick 12,
    .hand (StateMachine.encodePut ⟨1, 2⟩ [7] [2]), .tick 20, .collect true [⟨1, 1⟩] true,
    .hand (StateMachine.encodeSessionGc [⟨1, 1⟩]) ]

theorem live_session_deduplicated_collecting :
    ∃ s, SessionRun brief (fun s a => s.Spares brief a) (.start .new (some 0)) collectingActions s ∧
      s.sm.sessions[(⟨1, 1⟩ : SessionKey)]? = none ∧
      ∃ record, s.sm.sessions[(⟨1, 2⟩ : SessionKey)]? = some record ∧
        s.sm.apply (s.sm.applied + 1) (StateMachine.encodePut ⟨1, 2⟩ [7] [3]) =
          (.ok ⟨record.outcome, record.index, []⟩, { s.sm with applied := s.sm.applied + 1 }) := by
  have heval : (runSessions brief (fun s a => s.Spares brief a) (.start .new (some 0)) collectingActions).any (fun s =>
      s.book.Live brief ⟨1, 2⟩ ∧ s.sm.sessions[(⟨1, 1⟩ : SessionKey)]? = none) := by
    decide +kernel
  obtain ⟨s, hs, hfacts⟩ := (Option.any_eq_true _ _).mp heval
  obtain ⟨⟨hlocal, hlive⟩, hgone⟩ := of_decide_eq_true hfacts
  have hrun := SessionRun.of_runSessions hs
  obtain ⟨-, hretry⟩ := live_session_deduplicated hrun hlocal hlive
  obtain ⟨record, hrecord, happly⟩ := hretry [] (fun cmd hcmd => absurd hcmd List.not_mem_nil)
    (StateMachine.encodePut ⟨1, 2⟩ [7] [3]) (.put [7] [3]) (by decide +kernel)
  exact ⟨s, hrun, hgone, record, hrecord, happly⟩

/-- A session expires, and its client sends the write again. The retry is on its way when the leader proposes to collect
the session, so that the collection follows it in the log. -/
def racingActions : List SessionAction :=
  [ .collect true [] true, .hand (StateMachine.encodePut ⟨1, 1⟩ [7] [1]), .tick 20, .collect true [⟨1, 1⟩] true,
    .hand (StateMachine.encodePut ⟨1, 1⟩ [7] [1]), .hand (StateMachine.encodeSessionGc [⟨1, 1⟩]) ]

/-- **A live session can be gone from the state machine.** The retry makes the session live again here, and the collection
behind it removes it from the state machine: the next retry is executed a second time. -/
theorem live_session_executed_again :
    ∃ s, SessionRun brief (fun _ _ => True) (.start .new (some 0)) racingActions s ∧
      (s.book.sessions ⟨1, 1⟩).isSome ∧ s.book.sessionBand brief ⟨1, 1⟩ = .live ∧
      s.sm.sessions[(⟨1, 1⟩ : SessionKey)]? = none ∧
      (s.sm.apply (s.sm.applied + 1) (StateMachine.encodePut ⟨1, 1⟩ [7] [2])).2.kv[([7] : Bytes)]? = some ⟨[2], 4⟩ := by
  have heval : (runSessions brief (fun _ _ => True) (.start .new (some 0)) racingActions).any (fun s =>
      (s.book.sessions ⟨1, 1⟩).isSome ∧ s.book.sessionBand brief ⟨1, 1⟩ = .live ∧
      s.sm.sessions[(⟨1, 1⟩ : SessionKey)]? = none ∧
      (s.sm.apply (s.sm.applied + 1) (StateMachine.encodePut ⟨1, 1⟩ [7] [2])).2.kv[([7] : Bytes)]? = some ⟨[2], 4⟩) := by
    decide +kernel
  obtain ⟨s, hs, hfacts⟩ := (Option.any_eq_true _ _).mp heval
  exact ⟨s, .of_runSessions hs, of_decide_eq_true hfacts⟩

/-! ## Forgotten sessions -/

namespace SessionActor

variable {s s' : SessionActor} {a : SessionAction}

/-- The session is in the local table, or in a collection this actor has proposed. -/
def Covers (s : SessionActor) (session : SessionKey) : Prop :=
  (s.book.sessions session).isSome ∨ ∃ expired ∈ s.proposed, session ∈ expired

instance (session : SessionKey) : Decidable (s.Covers session) :=
  inferInstanceAs (Decidable (_ ∨ ∃ expired ∈ s.proposed, session ∈ expired))

/-- The sweep of the local table drops nothing, and a snapshot brings no session that is not covered. -/
def Keeps (env : Env) (s : SessionActor) : SessionAction → Prop
  | .hand data => (commandSession data).isSome → ∀ now ∈ s.book.sessionClock, s.book.nextSessionSweep ≤ now →
      ∀ session ∈ s.keys, ∀ last ∈ s.book.sessions session, now - last ≤ max (env.sessionTtlMs + env.sessionGraceMs) 1
  | .install snapshot => ∀ p ∈ (s.sm.restore snapshot.data).2.sessions.toList, s.Covers p.1
  | _ => True

instance : Decidable (s.Keeps env a) :=
  match a with
  | .hand data => inferInstanceAs (Decidable ((commandSession data).isSome → ∀ now ∈ s.book.sessionClock,
      s.book.nextSessionSweep ≤ now → ∀ session ∈ s.keys, ∀ last ∈ s.book.sessions session,
        now - last ≤ max (env.sessionTtlMs + env.sessionGraceMs) 1))
  | .install snapshot => inferInstanceAs (Decidable (∀ p ∈ (s.sm.restore snapshot.data).2.sessions.toList, s.Covers p.1))
  | .tick _ | .collect _ _ _ => .isTrue trivial

/-- Every session of the state machine is covered. -/
def Complete (s : SessionActor) : Prop := ∀ session, (s.sm.sessions[session]?).isSome → s.Covers session

/-- The clock is not taken away. -/
theorem clock_exec (h : s.book.sessionClock.isSome) (hok : s.exec env a = some s') : s'.book.sessionClock.isSome := by
  cases a with
  | tick now =>
      obtain ⟨before, -, -, rfl⟩ := tick_eq_some hok
      rfl
  | hand data =>
      obtain ⟨-, rfl⟩ := hand_eq_some hok
      show ((s.book.enqueue env _).sessionClock).isSome
      rw [Book.sessionClock_enqueue]
      exact h
  | install snapshot =>
      obtain rfl := install_eq_some hok
      exact h
  | collect leads expired accepted =>
      rcases collect_eq_some hok with ⟨next, rfl⟩ | ⟨next, rfl⟩
      · exact h
      · exact h

theorem Complete.exec (h : s.Complete) (hknown : s.Known) (hclock : s.book.sessionClock.isSome)
    (httl : env.sessionTtlMs ≠ 0) (hkeeps : s.Keeps env a) (hok : s.exec env a = some s') : s'.Complete := by
  intro session hrecorded
  cases a with
  | tick now =>
      obtain ⟨before, -, -, rfl⟩ := tick_eq_some hok
      exact h session hrecorded
  | hand data =>
      obtain ⟨-, rfl⟩ := hand_eq_some hok
      by_cases hown : commandSession data = some session
      · obtain ⟨now, hnow⟩ := Option.isSome_iff_exists.mp hclock
        refine .inl ?_
        show ((s.book.enqueue env (s.sm.applied + 1, data)).sessions session).isSome
        rw [Book.sessions_enqueue_self hown hnow httl]
        rfl
      · obtain ⟨record, hrecord⟩ := Option.isSome_iff_exists.mp hrecorded
        have hold : (s.sm.sessions[session]?).isSome := by
          rw [(recorded_of_apply hrecord).resolve_right hown]
          rfl
        -- it was covered before, and the sweep does not drop it
        refine (h session hold).imp_left fun hlocal => ?_
        rcases Book.sessions_enqueue s.book (s.sm.applied + 1, data) hown with
          hsame | ⟨-, hwrite, now, hnow, hdue, last, hlast, hswept⟩
        · exact hsame ▸ hlocal
        · exact absurd (hkeeps hwrite now hnow hdue session (hknown session hlocal) last hlast) hswept
  | install snapshot =>
      obtain rfl := install_eq_some hok
      obtain ⟨record, hrecord⟩ := Option.isSome_iff_exists.mp hrecorded
      exact hkeeps (session, record) (Std.ExtTreeMap.mem_toList_iff_getElem?_eq_some.mpr hrecord)
  | collect leads expired accepted =>
      rcases collect_eq_some hok with ⟨next, rfl⟩ | ⟨next, rfl⟩
      · exact h session hrecorded
      · by_cases hmem : session ∈ expired
        · exact .inr ⟨expired, List.mem_cons_self, hmem⟩
        · rcases h session hrecorded with hlocal | ⟨older, holder, hnamed⟩
          · refine .inl ?_
            show (if session ∈ expired then none else s.book.sessions session).isSome
            rw [if_neg hmem]
            exact hlocal
          · exact .inr ⟨older, List.mem_cons_of_mem _ holder, hnamed⟩

end SessionActor

/-- **Session collection is complete** in every run that starts without sessions and whose steps keep them: every session
of the state machine, once everything handed over is applied, is in the local table or in a collection that was
proposed. -/
theorem session_gc_complete {sm : Store} {now : Nat} {actions : List SessionAction} {s : SessionActor}
    (httl : env.sessionTtlMs ≠ 0) (hempty : ∀ session : SessionKey, sm.sessions[session]? = none)
    (hrun : SessionRun env (fun s a => s.Keeps env a) (.start sm (some now)) actions s) :
    ∀ session : SessionKey, (s.sm.sessions[session]?).isSome →
      (s.book.sessions session).isSome ∨ ∃ expired ∈ s.proposed, session ∈ expired := by
  have hinv : s.Known ∧ s.book.sessionClock.isSome ∧ s.Complete := by
    refine hrun.invariant (P := fun _ s => s.Known ∧ s.book.sessionClock.isSome ∧ s.Complete) ?_ ?_
    · rintro _ rfl
      refine ⟨fun session hsession => ?_, rfl, fun session hrecorded => ?_⟩
      · cases hsession
      · have hnone : (SessionActor.start sm (some now)).sm.sessions[session]? = none := hempty session
        rw [hnone] at hrecorded
        cases hrecorded
    · rintro _ s a s' - ⟨hknown, hclock, hcomplete⟩ ⟨hkeeps, hok⟩
      exact ⟨hknown.exec hok, SessionActor.clock_exec hclock hok, hcomplete.exec hknown hclock httl hkeeps hok⟩
  exact hinv.2.2

/-- Of two sessions on record, the expired one is about to be collected. -/
theorem session_gc_complete_collecting :
    ∃ s, SessionRun brief (fun s a => s.Keeps brief a) (.start .new (some 0)) (collectingActions.take 6) s ∧
      (s.sm.sessions[(⟨1, 1⟩ : SessionKey)]?).isSome ∧ s.Covers ⟨1, 1⟩ ∧
      (s.sm.sessions[(⟨1, 2⟩ : SessionKey)]?).isSome ∧ s.Covers ⟨1, 2⟩ := by
  have heval : (runSessions brief (fun s a => s.Keeps brief a) (.start .new (some 0)) (collectingActions.take 6)).any
      (fun s => (s.sm.sessions[(⟨1, 1⟩ : SessionKey)]?).isSome ∧ (s.sm.sessions[(⟨1, 2⟩ : SessionKey)]?).isSome) := by
    decide +kernel
  obtain ⟨s, hs, hfacts⟩ := (Option.any_eq_true _ _).mp heval
  obtain ⟨hfirst, hsecond⟩ := of_decide_eq_true hfacts
  have hrun := SessionRun.of_runSessions hs
  have hcomplete := session_gc_complete (by decide) (fun _ => rfl) hrun
  exact ⟨s, hrun, hfirst, hcomplete _ hfirst, hsecond, hcomplete _ hsecond⟩

/-- The state machine of a process that starts from a snapshot with one session. -/
def restoredStore : Store :=
  (Store.new.restore (StateMachine.runLog [StateMachine.encodePut ⟨1, 1⟩ [7] [1]]).2.snapshot).2

/-- A write, and rounds of collection long after every session has expired. -/
def lateActions : List SessionAction :=
  [ .collect true [] true, .hand (StateMachine.encodePut ⟨1, 2⟩ [7] [2]), .tick 100, .collect true [⟨1, 2⟩] true,
    .hand (StateMachine.encodeSessionGc [⟨1, 2⟩]), .tick 200, .collect true [] true ]

/-- Sessions are collected at 0, 10 and 20. At 17 the first session has expired, and the next write sweeps it out of the
local table. -/
def sweepingActions : List SessionAction :=
  [ .collect true [] true, .hand (StateMachine.encodePut ⟨1, 1⟩ [7] [1]), .tick 10, .collect true [] true, .tick 17,
    .hand (StateMachine.encodePut ⟨1, 2⟩ [7] [2]), .collect true [] true, .tick 100, .collect true [⟨1, 2⟩] true,
    .hand (StateMachine.encodeSessionGc [⟨1, 2⟩]), .tick 200, .collect true [] true ]

/-- **A session can be forgotten**: one that came with the snapshot the process started from is never in the local table,
and one that the sweep drops before a round of collection is due is not there any more. Neither is ever collected. -/
theorem session_forgotten :
    (∃ s, SessionRun brief (fun _ _ => True) (.start restoredStore (some 0)) lateActions s ∧
      (s.sm.sessions[(⟨1, 1⟩ : SessionKey)]?).isSome ∧ ¬ s.Covers ⟨1, 1⟩) ∧
    ∃ s, SessionRun brief (fun _ _ => True) (.start .new (some 0)) sweepingActions s ∧
      (s.sm.sessions[(⟨1, 1⟩ : SessionKey)]?).isSome ∧ ¬ s.Covers ⟨1, 1⟩ := by
  have hrestored : (runSessions brief (fun _ _ => True) (.start restoredStore (some 0)) lateActions).any
      (fun s => (s.sm.sessions[(⟨1, 1⟩ : SessionKey)]?).isSome ∧ ¬ s.Covers ⟨1, 1⟩) := by
    decide +kernel
  have hswept : (runSessions brief (fun _ _ => True) (.start .new (some 0)) sweepingActions).any
      (fun s => (s.sm.sessions[(⟨1, 1⟩ : SessionKey)]?).isSome ∧ ¬ s.Covers ⟨1, 1⟩) := by
    decide +kernel
  obtain ⟨s₁, hs₁, hfacts₁⟩ := (Option.any_eq_true _ _).mp hrestored
  obtain ⟨s₂, hs₂, hfacts₂⟩ := (Option.any_eq_true _ _).mp hswept
  exact ⟨⟨s₁, .of_runSessions hs₁, of_decide_eq_true hfacts₁⟩, s₂, .of_runSessions hs₂, of_decide_eq_true hfacts₂⟩

end Arachne.Runtime.Pipeline
