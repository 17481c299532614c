import Arachne.Data.Dedup
import Arachne.Data.OrdMap
import Arachne.StateMachine.Kv

/-! # Exactly-once execution

The store is an instance of the deduplicating machine of `Dedup`: its sessions are the `(client_id,
seq_no)` pairs, its calls the decoded writes, a session collection forgets sessions, and a record of its
table is the outcome and the index of a write. `Refines.perform` is the simulation, one case for each kind
of command; what the machine computes then holds of the store. -/

namespace Arachne.StateMachine

open Codec

/-- A command some parser accepts. -/
def WellFormed (cmd : Bytes) : Prop := (Command.decode cmd).isOk

instance : DecidablePred WellFormed := fun cmd => inferInstanceAs (Decidable ((Command.decode cmd).isOk = true))

theorem WellFormed.exists_decode {cmd : Bytes} (h : WellFormed cmd) : ∃ c, Command.decode cmd = .ok c := by
  rw [WellFormed] at h
  cases hc : Command.decode cmd with
  | error e => rw [hc] at h; cases h
  | ok c => exact ⟨c, rfl⟩

/-- The entry collects the session. -/
def Collects (session : SessionKey) (cmd : Bytes) : Prop :=
  ∃ sessions, Command.decode cmd = .ok (.sessionGc sessions) ∧ session ∈ sessions

def Write.isMultiPut : Write → Bool
  | .multiPut _ => true
  | _ => false

/-! ## The store as a deduplicating machine -/

def Command.entry : Command → Dedup.Entry SessionKey Write
  | .noop => .skip
  | .sessionGc sessions => .forget sessions
  | .write session op => .call session op

def logEntry (cmd : Bytes) : Dedup.Entry SessionKey Write :=
  match Command.decode cmd with
  | .error _ => .skip
  | .ok c => c.entry

/-- Execute the write of the `n`th entry, and make the record of its session. -/
def execRecord (n : Nat) (kv : KvMap) (op : Write) : KvMap × SessionRecord :=
  let (kv, outcome, _) := op.exec (UInt64.ofNat n) kv
  (kv, ⟨outcome, UInt64.ofNat n⟩)

/-- The map that executing only the first occurrence of each session since its last collection gives. -/
def executeFirst (log : List Bytes) : KvMap :=
  Dedup.executeAll execRecord ∅ (Dedup.firstOccurrences (log.map logEntry))

theorem logEntry_of_decode {cmd : Bytes} {c : Command} (h : Command.decode cmd = .ok c) : logEntry cmd = c.entry := by
  rw [logEntry, h]

theorem decode_of_logEntry {cmd : Bytes} {session : SessionKey} {op : Write}
    (h : logEntry cmd = .call session op) : Command.decode cmd = .ok (.write session op) := by
  rw [logEntry] at h
  split at h
  · cases h
  · next c hc =>
      cases c with
      | noop => cases h
      | sessionGc sessions => cases h
      | write s w => cases h; exact hc

theorem forgets_logEntry {cmd : Bytes} {session : SessionKey} (h : Collects session cmd) :
    (logEntry cmd).Forgets session := by
  obtain ⟨sessions, hdecode, hmem⟩ := h
  rw [logEntry_of_decode hdecode]
  exact hmem

/-- The store and the machine agree. -/
structure Refines (st : Store) (a : Dedup.State SessionKey KvMap SessionRecord) : Prop where
  applied : st.applied = UInt64.ofNat a.applied
  kv : st.kv = a.data
  sessions : ∀ session, st.sessions[session]? = a.table session

/-- **One command**: performing it keeps the store and the machine in agreement. -/
theorem Refines.perform {st : Store} {a : Dedup.State SessionKey KvMap SessionRecord} (h : Refines st a) (c : Command) :
    Refines (st.perform c).2 (a.step execRecord c.entry) := by
  have happlied : st.applied + 1 = UInt64.ofNat (a.applied + 1) := by
    rw [h.applied, UInt64.ofNat_add]
    rfl
  cases c with
  | noop => exact ⟨happlied, h.kv, h.sessions⟩
  | sessionGc sessions =>
      refine ⟨happlied, h.kv, fun session => ?_⟩
      refine (OrdMap.getElem?_foldl_erase st.sessions sessions session).trans ?_
      rw [h.sessions]
      rfl
  | write session op =>
      rw [Store.perform, Store.write, h.sessions, Command.entry, Dedup.State.step]
      cases ha : a.table session with
      | some record => exact ⟨happlied, h.kv, h.sessions⟩
      | none =>
          rw [h.kv, happlied]
          refine ⟨rfl, rfl, fun t => ?_⟩
          dsimp only
          rw [OrdMap.getElem?_insert, Function.update_apply, h.sessions]
          rfl

/-! ## Whole logs -/

/-- The machine that consumed the entries of a log. -/
def machine (log : List Bytes) : Dedup.State SessionKey KvMap SessionRecord :=
  Dedup.run execRecord ∅ (log.map logEntry)

theorem machine_faithful (log : List Bytes) : Dedup.Faithful execRecord ∅ (log.map logEntry) (machine log) :=
  Dedup.run_faithful execRecord ∅ (log.map logEntry)

theorem Refines.applied_succ {log : List Bytes} (h : Refines (runLog log).2 (machine log)) :
    (runLog log).2.applied + 1 = UInt64.ofNat (log.length + 1) := by
  rw [h.applied, (machine_faithful log).applied, List.length_map, UInt64.ofNat_add]
  rfl

/-- After a log, the next entry is performed. -/
theorem Refines.apply_next {log : List Bytes} (h : Refines (runLog log).2 (machine log)) {cmd : Bytes} {c : Command}
    (hc : Command.decode cmd = .ok c) :
    (runLog log).2.apply (UInt64.ofNat (log.length + 1)) cmd =
      (.ok ((runLog log).2.perform c).1, ((runLog log).2.perform c).2) := by
  rw [← h.applied_succ, Store.apply_next, hc]

/-- A log of well-formed commands: every entry is answered, and the store and the machine agree at the
end. -/
theorem refines_runLog {log : List Bytes} (hwf : ∀ cmd ∈ log, WellFormed cmd) :
    (∀ answer ∈ (runLog log).1, answer.isOk) ∧ Refines (runLog log).2 (machine log) := by
  induction log using List.reverseRecOn with
  | nil =>
      refine ⟨fun answer hanswer => ?_, rfl, rfl, fun _ => rfl⟩
      cases hanswer
  | append_singleton log cmd ih =>
      rw [List.forall_mem_append, List.forall_mem_singleton] at hwf
      obtain ⟨hanswers, href⟩ := ih hwf.1
      obtain ⟨c, hc⟩ := hwf.2.exists_decode
      rw [runLog_snoc, href.apply_next hc, machine, List.map_append, List.map_singleton, Dedup.run_snoc,
        logEntry_of_decode hc]
      refine ⟨?_, href.perform c⟩
      rw [List.forall_mem_append, List.forall_mem_singleton]
      exact ⟨hanswers, rfl⟩

/-- `first` is the first entry of its session since the session was last collected, and `answer` is what
applying it returned. -/
structure FirstApplication (log : List Bytes) (session : SessionKey) (before : List Bytes) (first : Bytes)
    (after : List Bytes) (answer : Applied) : Prop where
  split : log = before ++ first :: after
  writes : ∃ op, Command.decode first = .ok (.write session op)
  fresh : session ∉ (runLog before).2.sessions
  kept : ∀ cmd ∈ after, ¬ Collects session cmd
  answered : (runLog log).1[before.length]? = some (.ok answer)
  index : answer.index = UInt64.ofNat (before.length + 1)

/-- A record of the table is the outcome and the index of a first application. -/
theorem exists_firstApplication {log : List Bytes} (hwf : ∀ cmd ∈ log, WellFormed cmd) {session : SessionKey}
    {record : SessionRecord} (hrecord : (runLog log).2.sessions[session]? = some record) :
    ∃ before first after answer, FirstApplication log session before first after answer ∧
      answer.outcome = record.outcome ∧ answer.index = record.index := by
  rw [(refines_runLog hwf).2.sessions] at hrecord
  obtain ⟨before', op, after', hsplit, hlive, hkept, hexec⟩ := (machine_faithful log).established _ _ hrecord
  -- The split of the machine's log is one of the store's.
  obtain ⟨before, rest, rfl, rfl, hrest⟩ := List.map_eq_append_iff.mp hsplit
  obtain ⟨first, after, rfl, hfirst, rfl⟩ := List.map_eq_cons_iff.mp hrest
  have hdecode := decode_of_logEntry hfirst
  have href := (refines_runLog fun cmd hcmd => hwf cmd (List.mem_append_left _ hcmd)).2
  have hfresh : (runLog before).2.sessions[session]? = none := by
    rw [href.sessions, ← Option.isNone_iff_eq_none, ← Option.not_isSome, (machine_faithful before).live, hlive]
    rfl
  rw [← (machine_faithful before).data, ← href.kv, List.length_map] at hexec
  have hanswer := answer_eq before first after
  rw [href.apply_next hdecode, Store.perform, Store.write_of_fresh hfresh, href.applied_succ] at hanswer
  refine ⟨before, first, after, _, ⟨rfl, ⟨op, hdecode⟩, ?_, ?_, hanswer, rfl⟩, ?_, ?_⟩
  · rw [Std.ExtTreeMap.mem_iff_isSome_getElem?, hfresh]
    exact Bool.false_ne_true
  · exact fun cmd hcmd hcollects => hkept _ (List.mem_map_of_mem hcmd) (forgets_logEntry hcollects)
  · rw [hexec]
    rfl
  · rw [hexec]
    rfl

/-- **Exactly-once execution.** A log of well-formed commands is applied without an error, and leaves the
map that executing only first occurrences gives. A command whose session is in the table is answered from
its first application, and changes the applied index only; a `multi_put` is answered as it was each time. -/
theorem apply_exactly_once {log : List Bytes} (hwf : ∀ cmd ∈ log, WellFormed cmd) :
    (∀ answer ∈ (runLog log).1, answer.isOk) ∧ (runLog log).2.kv = executeFirst log ∧
      ∀ cmd session op, Command.decode cmd = .ok (.write session op) → session ∈ (runLog log).2.sessions →
        ∃ before first after answer outcome, FirstApplication log session before first after answer ∧
          (runLog log).2.apply (UInt64.ofNat (log.length + 1)) cmd =
            (.ok ⟨outcome, answer.index, []⟩, { (runLog log).2 with applied := UInt64.ofNat (log.length + 1) }) ∧
          (op.isMultiPut = false → outcome = answer.outcome) ∧
          (op.isMultiPut = true → ∀ pre post, ∀ earlier : Applied, log = pre ++ cmd :: post →
            (runLog log).1[pre.length]? = some (.ok earlier) → earlier.outcome = outcome) := by
  obtain ⟨hanswers, href⟩ := refines_runLog hwf
  refine ⟨hanswers, href.kv.trans (machine_faithful log).data, fun cmd session op hdecode hmem => ?_⟩
  obtain ⟨record, hrecord⟩ := Option.isSome_iff_exists.mp (Std.ExtTreeMap.mem_iff_isSome_getElem?.mp hmem)
  obtain ⟨before, first, after, answer, hfirst, houtcome, hindex⟩ := exists_firstApplication hwf hrecord
  have happly := href.apply_next hdecode
  rw [Store.perform, Store.write_of_recorded hrecord, href.applied_succ, ← hindex] at happly
  refine ⟨before, first, after, answer, _, hfirst, happly, fun hmulti => ?_, ?_⟩
  · cases op with
    | multiPut entries => cases hmulti
    | put key val => exact houtcome.symm
    | delete key => exact houtcome.symm
    | cas key pred success => exact houtcome.symm
  · rintro hmulti pre post earlier rfl hearlier
    cases op with
    | multiPut entries =>
        have hpre := (refines_runLog fun cmd hcmd => hwf cmd (List.mem_append_left _ hcmd)).2
        rw [answer_eq, hpre.apply_next hdecode] at hearlier
        obtain rfl := Except.ok.inj (Option.some.inj hearlier)
        exact Store.outcome_write_multiPut _ session entries
    | put key val => cases hmulti
    | delete key => cases hmulti
    | cas key pred success => cases hmulti

/-- Retries of every kind of write, with a collection between two of them. -/
def retriedLog : List Bytes :=
  [ encodePut ⟨1, 1⟩ [7] [10],
    encodePut ⟨1, 1⟩ [7] [10],
    encodeSessionGc [⟨1, 1⟩],
    encodePut ⟨1, 1⟩ [7] [10],
    encodeMultiPut ⟨2, 1⟩ [([8], [1]), ([8], [2])],
    [],
    encodeMultiPut ⟨2, 1⟩ [([8], [1]), ([8], [2])],
    encodeCas ⟨2, 2⟩ [7] .notExists .delete,
    encodeDelete ⟨2, 3⟩ [8],
    encodeCas ⟨2, 2⟩ [7] .notExists .delete ]

theorem apply_exactly_once_retried :
    (runLog retriedLog).2.kv = executeFirst retriedLog ∧
      ∃ before first after answer, FirstApplication retriedLog ⟨2, 2⟩ before first after answer ∧
        (runLog retriedLog).2.apply 11 (encodeCas ⟨2, 2⟩ [7] .notExists .delete) =
          (.ok ⟨answer.outcome, answer.index, []⟩, { (runLog retriedLog).2 with applied := 11 }) := by
  obtain ⟨-, hkv, hreplay⟩ := @apply_exactly_once retriedLog (by decide +kernel)
  obtain ⟨before, first, after, answer, outcome, hfirst, happly, houtcome, -⟩ :=
    hreplay (encodeCas ⟨2, 2⟩ [7] .notExists .delete) ⟨2, 2⟩ (.cas [7] .notExists .delete) (by decide +kernel)
      (by decide +kernel)
  exact ⟨hkv, before, first, after, answer, hfirst, houtcome rfl ▸ happly⟩

end Arachne.StateMachine
