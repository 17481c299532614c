import Arachne.Data.OrdMap
import Arachne.Data.Run
import Arachne.StateMachine.Kv

/-! # Snapshots of the state machine

`snapshot` writes the store as

    [3][applied]
    [kv_len]([key_len][key][val_len][val][index])*
    [sess_len]([client_id][seq_no][outcome][index])*

in the order of the two maps, and `restore` replaces the store by what it reads back. Every length is
written as a `u32`, so the round trip needs the lengths of the store to fit. Those of keys and values do
in every store that was filled by applying entries, since each of them was read from a command behind a
`u32` of its own (`Store.Fits`); only the numbers of keys and of sessions are left to be assumed. -/

namespace Arachne.StateMachine

open Codec

/-! ## Writing -/

def kvSnapshotVersion : UInt8 := 3

def encodeCurrentValue : Option Bytes → Bytes
  | some val => 1 :: sized val
  | none => [0]

def encodeOutcome : ApplyOutcome → Bytes
  | .none => [0]
  | .value val => 1 :: sized val
  | .casFailed currentIndex currentValue => 2 :: (u64Bytes currentIndex ++ encodeCurrentValue currentValue)

def encodeKvEntry (x : Bytes × Entry) : Bytes := sized x.1 ++ (sized x.2.val ++ u64Bytes x.2.index)

def encodeRecord (x : SessionKey × SessionRecord) : Bytes :=
  encodeSession x.1 ++ (encodeOutcome x.2.outcome ++ u64Bytes x.2.index)

/-- `snapshot`. -/
def Store.snapshot (st : Store) : Bytes :=
  kvSnapshotVersion :: (u64Bytes st.applied ++
    (u32Bytes st.kv.size ++ (st.kv.toList.flatMap encodeKvEntry ++
      (u32Bytes st.sessions.size ++ st.sessions.toList.flatMap encodeRecord))))

/-! ## Reading -/

def readCurrentValue : Reader (Option Bytes) := do
  match ← .byte with
  | 1 => return some (← .sizedBytes)
  | 0 => return none
  | _ => failure

def readOutcome : Reader ApplyOutcome := do
  match ← .byte with
  | 0 => return .none
  | 1 => return .value (← .sizedBytes)
  | 2 =>
    let currentIndex ← .u64
    let currentValue ← readCurrentValue
    return .casFailed currentIndex currentValue
  | _ => failure

/-- Read an entry of the map into it. -/
def readKvEntry (kv : KvMap) : Reader KvMap := do
  let key ← .sizedBytes
  let val ← .sizedBytes
  let index ← .u64
  return kv.insert key { val, index }

/-- Read a record of the session table into it. -/
def readRecord (sessions : SessionTable) : Reader SessionTable := do
  let session ← readSession
  let outcome ← readOutcome
  let index ← .u64
  return sessions.insert session { outcome, index }

def readStore : Reader Store := do
  let version ← .byte
  guard (version = kvSnapshotVersion)
  let applied ← .u64
  let kvLen ← .u32
  let kv ← .iterate readKvEntry kvLen ∅
  let sessLen ← .u32
  let sessions ← .iterate readRecord sessLen ∅
  return { applied, kv, sessions }

/-- `decode_store`. A snapshot has no trailing bytes. -/
def decodeStore (bytes : Bytes) : Except KvError Store :=
  (do let st ← readStore; .eof; return st : Reader _).parse .malformedSnapshot bytes

/-- `restore`. The bytes are decoded before the lock is taken. -/
def Store.restore (st : Store) (bytes : Bytes) : Except KvError Unit × Store :=
  Locked.run (do
    let next ← decodeStore bytes
    set next) st

/-- A snapshot that is not read changes nothing, and one that is read replaces the whole store. -/
theorem Store.restore_eq (st : Store) (bytes : Bytes) :
    st.restore bytes =
      match decodeStore bytes with
      | .error e => (.error e, st)
      | .ok next => (.ok (), next) := by
  rw [Store.restore]
  cases decodeStore bytes with
  | error e => rfl
  | ok next => rfl

/-- **Failed operations leave no trace**: an entry that is refused, for its index or for its bytes, and a snapshot that
is rejected leave the whole store as it was. -/
theorem failure_leaves_store (st : Store) (index : UInt64) (bytes : Bytes) :
    (∀ e st', st.apply index bytes = (.error e, st') → st' = st) ∧
      ∀ e st', st.restore bytes = (.error e, st') → st' = st := by
  constructor
  · intro e st' h
    by_cases hindex : index = st.applied + 1
    · subst hindex
      exact (Store.of_apply_next_error h).2
    · rw [Store.apply_of_index_ne hindex] at h
      exact (Prod.mk.inj h).2.symm
  · intro e st' h
    rw [Store.restore_eq] at h
    cases hdecode : decodeStore bytes with
    | error e' =>
        rw [hdecode] at h
        exact (Prod.mk.inj h).2.symm
    | ok next => rw [hdecode] at h; cases h

/-- A collection whose list of sessions is cut short is refused, and so are the same bytes as a snapshot. -/
theorem failure_leaves_store_cutShort :
    ∃ st', Store.new.apply 1 [2, 1, 0, 0, 0, 7] = (.error .malformedCommand, st') ∧ st' = Store.new ∧
      ∃ st'', Store.new.restore [2, 1, 0, 0, 0, 7] = (.error .malformedSnapshot, st'') ∧ st'' = Store.new := by
  have happly : Store.new.apply 1 [2, 1, 0, 0, 0, 7] =
      (.error .malformedCommand, (Store.new.apply 1 [2, 1, 0, 0, 0, 7]).2) := Prod.ext (by decide +kernel) rfl
  have hrestore : Store.new.restore [2, 1, 0, 0, 0, 7] =
      (.error .malformedSnapshot, (Store.new.restore [2, 1, 0, 0, 0, 7]).2) := Prod.ext (by decide +kernel) rfl
  have hkept := failure_leaves_store Store.new 1 [2, 1, 0, 0, 0, 7]
  exact ⟨_, happly, hkept.1 _ _ happly, _, hrestore, hkept.2 _ _ hrestore⟩

/-- A snapshot says which index it was taken at. This holds of a store of any size, even of one whose counts do
not fit their fields. -/
theorem applied_of_decodeStore {st st' : Store} (h : decodeStore st.snapshot = .ok st') : st'.applied = st.applied := by
  obtain ⟨rest, hread⟩ := Reader.eq_some_of_parse_eof h
  rw [Store.snapshot, ← List.singleton_append, readStore, (Reader.Reads.byte kvSnapshotVersion).run_bind,
    guard, if_pos rfl] at hread
  rw [Reader.bind_apply] at hread
  replace hread := ((Reader.Reads.u64 st.applied).run_bind _ _).symm.trans hread
  have hyields : Reader.Yields (do
      let kvLen ← .u32
      let kv ← .iterate readKvEntry kvLen ∅
      let sessLen ← .u32
      let sessions ← .iterate readRecord sessLen ∅
      return ({ applied := st.applied, kv, sessions } : Store)) fun x => x.applied = st.applied :=
    .bind (.any _) fun _ _ => .bind (.any _) fun _ _ => .bind (.any _) fun _ _ => .bind (.any _) fun _ _ => .pure rfl
  exact hyields _ _ _ hread

/-! ## Lengths that fit -/

/-- A key or a value whose length is a `u32`. -/
def Short (bs : Bytes) : Prop := bs.length < 2 ^ 32

instance (bs : Bytes) : Decidable (Short bs) := inferInstanceAs (Decidable (_ < _))

def ApplyOutcome.Fits : ApplyOutcome → Prop
  | .none => True
  | .value val => Short val
  | .casFailed _ currentValue => ∀ val ∈ currentValue, Short val

def CasOp.Fits : CasOp → Prop
  | .put value => Short value
  | .delete => True

/-- What a write can put into the store fits. -/
def Write.Fits : Write → Prop
  | .put key val => Short key ∧ Short val
  | .delete _ => True
  | .multiPut entries => ∀ entry ∈ entries, Short entry.1 ∧ Short entry.2
  | .cas key _ success => Short key ∧ success.Fits

def KvMap.Fits (kv : KvMap) : Prop := ∀ key entry, kv[key]? = some entry → Short key ∧ Short entry.val

/-- Every key and value of the store fits. -/
structure Store.Fits (st : Store) : Prop where
  kv : KvMap.Fits st.kv
  sessions : ∀ (session : SessionKey) (record : SessionRecord), st.sessions[session]? = some record → record.outcome.Fits

theorem short_nil : Short [] := Nat.two_pow_pos 32

/-! ### Commands -/

theorem readCommand_fits : Reader.Yields readCommand fun x => Short x.2.2.1 ∧ Short x.2.2.2 := by
  refine .bind (.any _) fun op _ => .bind (.any _) fun session _ => .bind .sizedBytes fun key hkey => ?_
  cases op with
  | put => exact .bind .sizedBytes fun val hval => .pure ⟨hkey, hval⟩
  | delete => exact .bind (.any _) fun _ _ => .pure ⟨hkey, short_nil⟩

theorem readPair_fits : Reader.Yields readPair fun x => Short x.1 ∧ Short x.2 :=
  .bind .sizedBytes fun _ hkey => .bind .sizedBytes fun _ hval => .pure ⟨hkey, hval⟩

theorem readMultiPut_fits :
    Reader.Yields readMultiPut fun x => ∀ entry ∈ x.2, Short entry.1 ∧ Short entry.2 :=
  .bind (.any _) fun _ _ => .bind (.any _) fun _ _ => .bind (.any _) fun count _ => .bind (.any _) fun _ _ =>
    .bind (.many readPair_fits count) fun _ hentries => .pure hentries

theorem readCasOp_fits : Reader.Yields readCasOp CasOp.Fits := by
  refine .bind (.any _) fun tag _ => ?_
  split
  · exact .bind .sizedBytes fun _ hvalue => .pure hvalue
  · exact .pure trivial
  · exact .reject

theorem readCas_fits : Reader.Yields readCas fun x => Short x.2.1 ∧ x.2.2.2.Fits :=
  .bind (.any _) fun _ _ => .bind (.any _) fun _ _ => .bind .sizedBytes fun _ hkey =>
    .bind (.any _) fun _ _ => .bind readCasOp_fits fun _ hsuccess => .pure ⟨hkey, hsuccess⟩

/-- Every write an entry decodes to fits. -/
theorem Command.decode_fits {cmd : Bytes} {session : SessionKey} {op : Write}
    (h : Command.decode cmd = .ok (.write session op)) : op.Fits := by
  unfold Command.decode at h
  split at h
  · cases h
  split_ifs at h
  · obtain ⟨sessions, -, heq⟩ := Transition.map_eq_ok.mp h
    cases heq
  · obtain ⟨⟨s, entries⟩, hparse, heq⟩ := Transition.map_eq_ok.mp h
    cases heq
    exact readMultiPut_fits.parse_eof hparse
  · obtain ⟨⟨s, key, pred, success⟩, hparse, heq⟩ := Transition.map_eq_ok.mp h
    cases heq
    exact readCas_fits.parse_eof hparse
  · obtain ⟨⟨s, kind, key, val⟩, hparse, heq⟩ := Transition.map_eq_ok.mp h
    obtain ⟨rest, hrun⟩ := Reader.parse_eq_ok.mp hparse
    have hfits := readCommand_fits _ _ rest hrun
    cases kind with
    | put => cases heq; exact hfits
    | delete => cases heq; exact trivial

/-! ### The store -/

theorem KvMap.Fits.insert {kv : KvMap} (h : kv.Fits) {key val : Bytes} (hkey : Short key) (hval : Short val)
    (index : UInt64) : KvMap.Fits (kv.insert key { val, index }) :=
  OrdMap.forall_insert h ⟨hkey, hval⟩

theorem KvMap.Fits.erase {kv : KvMap} (h : kv.Fits) (key : Bytes) : KvMap.Fits (kv.erase key) :=
  OrdMap.forall_erase h key

theorem KvMap.Fits.insertAll {kv : KvMap} (h : kv.Fits) {entries : List (Bytes × Bytes)}
    (hentries : ∀ entry ∈ entries, Short entry.1 ∧ Short entry.2) (index : UInt64) :
    KvMap.Fits (entries.foldl (fun kv (key, val) => kv.insert key { val, index }) kv) := by
  induction entries generalizing kv with
  | nil => exact h
  | cons entry entries ih =>
      rw [List.forall_mem_cons] at hentries
      exact ih (h.insert hentries.1.1 hentries.1.2 index) hentries.2

theorem KvMap.Fits.casFailure {kv : KvMap} (h : kv.Fits) (key : Bytes) : (casFailure kv[key]?).Fits := by
  cases hentry : kv[key]? with
  | none => exact fun val hval => (nomatch hval)
  | some entry =>
      intro val hval
      obtain rfl := Option.some.inj hval
      exact (h key entry hentry).2

/-- Executing a write that fits keeps the map fitting, and its outcome fits. -/
theorem Write.Fits.exec {op : Write} (hop : op.Fits) {kv : KvMap} (h : kv.Fits) (index : UInt64) :
    KvMap.Fits (op.exec index kv).1 ∧ (op.exec index kv).2.1.Fits := by
  cases op with
  | put key val => exact ⟨h.insert hop.1 hop.2 index, hop.2⟩
  | delete key => exact ⟨h.erase key, trivial⟩
  | multiPut entries => exact ⟨h.insertAll hop index, trivial⟩
  | cas key pred success =>
      dsimp only [Write.exec]
      split
      · cases success with
        | put value => exact ⟨h.insert hop.1 hop.2 index, hop.2⟩
        | delete => exact ⟨h.erase key, trivial⟩
      · exact ⟨h, h.casFailure key⟩

theorem Store.Fits.perform {st : Store} (h : st.Fits) {cmd : Bytes} {c : Command} (hc : Command.decode cmd = .ok c) :
    (st.perform c).2.Fits := by
  cases c with
  | noop => exact ⟨h.kv, h.sessions⟩
  | sessionGc sessions =>
      refine ⟨h.kv, fun session record hrecord => ?_⟩
      replace hrecord : (sessions.foldl (·.erase ·) st.sessions)[session]? = some record := hrecord
      rw [OrdMap.getElem?_foldl_erase, Option.ite_none_left_eq_some] at hrecord
      exact h.sessions session record hrecord.2
  | write session op =>
      rw [Store.perform]
      cases hrecord : st.sessions[session]? with
      | some record =>
          rw [Store.write_of_recorded hrecord]
          exact ⟨h.kv, h.sessions⟩
      | none =>
          rw [Store.write_of_fresh hrecord]
          obtain ⟨hkv, houtcome⟩ := (Command.decode_fits hc).exec h.kv (st.applied + 1)
          exact ⟨hkv, OrdMap.forall_insert h.sessions houtcome⟩

/-- **One entry**, at any index and whatever its bytes, keeps the store fitting. -/
theorem Store.Fits.apply {st : Store} (h : st.Fits) (index : UInt64) (cmd : Bytes) : (st.apply index cmd).2.Fits := by
  by_cases hindex : index = st.applied + 1
  · subst hindex
    rw [Store.apply_next]
    cases hc : Command.decode cmd with
    | error e => exact h
    | ok c => exact h.perform hc
  · rw [Store.apply_of_index_ne hindex]
    exact h

/-- A store the empty one becomes by applying entries. -/
def Store.Reachable (st : Store) : Prop := ∃ entries, (Store.new.applyEach entries).2 = st

theorem Store.Fits.applyEach {st : Store} (h : st.Fits) (entries : List (UInt64 × Bytes)) :
    (st.applyEach entries).2.Fits := by
  induction entries generalizing st with
  | nil => exact h
  | cons entry entries ih => exact ih (h.apply entry.1 entry.2)

theorem Store.Reachable.fits {st : Store} (h : st.Reachable) : st.Fits := by
  obtain ⟨entries, rfl⟩ := h
  refine Store.Fits.applyEach ⟨fun key entry hentry => ?_, fun session record hrecord => ?_⟩ entries
  · cases hentry
  · cases hrecord

/-! ## The round trip -/

theorem reads_session (session : SessionKey) : Reader.Reads readSession (encodeSession session) session :=
  .bind (.u64 session.clientId) (.bind_pure (.u64 session.seqNo) _)

theorem reads_currentValue {currentValue : Option Bytes} (h : ∀ val ∈ currentValue, Short val) :
    Reader.Reads readCurrentValue (encodeCurrentValue currentValue) currentValue := by
  cases currentValue with
  | none => exact .bind_byte (.pure none)
  | some val => exact .bind_byte (.bind_pure (.sizedBytes (h val rfl)) _)

theorem reads_outcome {outcome : ApplyOutcome} (h : outcome.Fits) :
    Reader.Reads readOutcome (encodeOutcome outcome) outcome := by
  cases outcome with
  | none => exact .bind_byte (.pure _)
  | value val => exact .bind_byte (.bind_pure (.sizedBytes h) _)
  | casFailed currentIndex currentValue =>
      exact .bind_byte (.bind (.u64 currentIndex) (.bind_pure (reads_currentValue h) _))

theorem reads_kvEntry {x : Bytes × Entry} (hkey : Short x.1) (hval : Short x.2.val) (kv : KvMap) :
    Reader.Reads (readKvEntry kv) (encodeKvEntry x) (kv.insert x.1 x.2) :=
  .bind (.sizedBytes hkey) (.bind (.sizedBytes hval) (.bind_pure (.u64 x.2.index) _))

theorem reads_record {x : SessionKey × SessionRecord} (h : x.2.outcome.Fits) (sessions : SessionTable) :
    Reader.Reads (readRecord sessions) (encodeRecord x) (sessions.insert x.1 x.2) :=
  .bind (reads_session x.1) (.bind (reads_outcome h) (.bind_pure (.u64 x.2.index) _))

/-- The loop over a table reads what the table lists first. -/
theorem reads_firstEntries {α β : Type} [Ord α] [Std.TransOrd α] [Std.LawfulEqOrd α] {m : Std.ExtTreeMap α β}
    {body : Std.ExtTreeMap α β → Reader (Std.ExtTreeMap α β)} {enc : α × β → Bytes}
    (h : ∀ a b, m[a]? = some b → ∀ acc, Reader.Reads (body acc) (enc (a, b)) (acc.insert a b)) {count : Nat}
    (hle : count ≤ m.size) :
    Reader.Reads (.iterate body count ∅) ((m.toList.take count).flatMap enc)
      ((m.toList.take count).foldl (fun acc x => acc.insert x.1 x.2) (∅ : Std.ExtTreeMap α β)) := by
  have hlen : (m.toList.take count).length = count := by
    rw [List.length_take_of_le]
    rw [Std.ExtTreeMap.length_toList]
    exact hle
  nth_rewrite 1 [← hlen]
  refine .iterate (fun x hx acc => ?_) ∅
  exact h x.1 x.2 (Std.ExtTreeMap.mem_toList_iff_getElem?_eq_some.mp (List.mem_of_mem_take hx)) acc

/-- The whole of it gives the table. -/
theorem reads_table {α β : Type} [Ord α] [Std.TransOrd α] [Std.LawfulEqOrd α] [DecidableEq α] {m : Std.ExtTreeMap α β}
    {body : Std.ExtTreeMap α β → Reader (Std.ExtTreeMap α β)} {enc : α × β → Bytes}
    (h : ∀ a b, m[a]? = some b → ∀ acc, Reader.Reads (body acc) (enc (a, b)) (acc.insert a b)) :
    Reader.Reads (.iterate body m.size ∅) (m.toList.flatMap enc) m := by
  have hread := reads_firstEntries h (Nat.le_refl m.size)
  rwa [List.take_of_length_le Std.ExtTreeMap.length_toList.le, OrdMap.foldl_insert_toList] at hread

theorem reads_kv {kv : KvMap} (h : kv.Fits) :
    Reader.Reads (.iterate readKvEntry kv.size ∅) (kv.toList.flatMap encodeKvEntry) kv :=
  reads_table fun key entry hentry => reads_kvEntry (h key entry hentry).1 (h key entry hentry).2

theorem reads_sessions {sessions : SessionTable}
    (h : ∀ (session : SessionKey) (record : SessionRecord), sessions[session]? = some record → record.outcome.Fits) :
    Reader.Reads (.iterate readRecord sessions.size ∅) (sessions.toList.flatMap encodeRecord) sessions :=
  reads_table fun session record hrecord => reads_record (h session record hrecord)

/-- Reading a snapshot gives the store it was taken of. -/
theorem reads_snapshot {st : Store} (h : st.Fits) (hkv : st.kv.size < 2 ^ 32) (hsessions : st.sessions.size < 2 ^ 32) :
    Reader.Reads readStore st.snapshot st :=
  .bind_byte (.check rfl (.bind (.u64 st.applied) (.bind (.u32 hkv) (.bind (reads_kv h.kv)
    (.bind (.u32 hsessions) (.bind_pure (reads_sessions h.sessions) _))))))

/-- **Snapshot transparency.** Restoring the snapshot of a reachable store, into whatever store, gives the
reachable store back, and the two cannot be told apart by applying further entries. -/
theorem snapshot_transparent {st : Store} (h : st.Reachable) (hkv : st.kv.size < 2 ^ 32)
    (hsessions : st.sessions.size < 2 ^ 32) (target : Store) :
    target.restore st.snapshot = (.ok (), st) ∧
      ∀ further, (target.restore st.snapshot).2.applyEach further = st.applyEach further := by
  have hdecode : decodeStore st.snapshot = .ok st := (reads_snapshot h.fits hkv hsessions).parse _
  have hrestore : target.restore st.snapshot = (.ok (), st) := by
    rw [Store.restore, hdecode]
    rfl
  refine ⟨hrestore, fun further => ?_⟩
  rw [hrestore]

/-- Entries that leave a record of each kind of outcome, with a rejected one among them. -/
def mixedEntries : List (UInt64 × Bytes) :=
  [ (1, encodePut ⟨1, 1⟩ [7] [10]),
    (2, [9]),
    (2, encodeCas ⟨1, 2⟩ [7] .notExists .delete),
    (3, encodeCas ⟨1, 3⟩ [8] (.indexEquals 1) .delete),
    (4, encodeMultiPut ⟨2, 1⟩ [([8], [1]), ([], [2])]) ]

theorem snapshot_transparent_mixed :
    Store.new.restore (Store.new.applyEach mixedEntries).2.snapshot = (.ok (), (Store.new.applyEach mixedEntries).2) :=
  (snapshot_transparent ⟨mixedEntries, rfl⟩ (by decide +kernel) (by decide +kernel) Store.new).1

end Arachne.StateMachine
