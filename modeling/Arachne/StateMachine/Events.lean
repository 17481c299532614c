import Arachne.Data.OrdMap
import Arachne.StateMachine.Kv
import Mathlib.Data.List.Induction
import Mathlib.Logic.Function.Basic

/-! # The events of an entry

Applying an entry emits the changes it made, one event for each key. Folding them into the map before the entry
gives the map after it (`Store.kv_apply`), and replaying them over its values gives the values after it
(`Store.values_apply`), so a client that holds the values and receives every event follows the state machine. -/

namespace Arachne.StateMachine

open Codec

/-- The values of a map, without the indices that wrote them. -/
def KvMap.values (kv : KvMap) : Bytes → Option Bytes := fun key => kv[key]?.map Entry.val

/-- Replay events over values. -/
def replay (values : Bytes → Option Bytes) (events : List WatchEvent) : Bytes → Option Bytes :=
  events.foldl (fun values ev => Function.update values ev.key ev.value) values

theorem replay_append (values : Bytes → Option Bytes) (xs ys : List WatchEvent) :
    replay values (xs ++ ys) = replay (replay values xs) ys := List.foldl_append

theorem KvMap.values_insert (kv : KvMap) (key : Bytes) (entry : Entry) :
    KvMap.values (kv.insert key entry) = Function.update kv.values key (some entry.val) := by
  funext k
  unfold KvMap.values
  rw [OrdMap.getElem?_insert]
  by_cases h : k = key
  · subst h
    rw [if_pos rfl, Function.update_self]
    rfl
  · rw [if_neg h, Function.update_of_ne h]

theorem KvMap.values_erase (kv : KvMap) (key : Bytes) :
    KvMap.values (kv.erase key) = Function.update kv.values key none := by
  funext k
  unfold KvMap.values
  rw [OrdMap.getElem?_erase]
  by_cases h : k = key
  · subst h
    rw [if_pos rfl, Function.update_self]
    rfl
  · rw [if_neg h, Function.update_of_ne h]

/-! ## Following a map -/

/-- Fold one event into a map: a put sets the key, a delete removes it. -/
def KvMap.change (kv : KvMap) (ev : WatchEvent) : KvMap :=
  match ev.value with
  | some val => kv.insert ev.key { val, index := ev.index }
  | none => kv.erase ev.key

/-- Fold the events of an entry into a map. -/
def KvMap.follow (kv : KvMap) (events : List WatchEvent) : KvMap := events.foldl KvMap.change kv

theorem KvMap.values_change (kv : KvMap) (ev : WatchEvent) :
    (kv.change ev).values = Function.update kv.values ev.key ev.value := by
  obtain ⟨index, key, value⟩ := ev
  cases value with
  | some val => exact kv.values_insert key _
  | none => exact kv.values_erase key

/-- What following a map does to its values. -/
theorem KvMap.values_follow (kv : KvMap) (events : List WatchEvent) :
    (kv.follow events).values = replay kv.values events := by
  induction events generalizing kv with
  | nil => rfl
  | cons ev events ih =>
      refine (ih (kv.change ev)).trans ?_
      rw [kv.values_change]
      rfl

/-! ## Several keys at once -/

/-- The puts of a list of pairs, in its order. -/
def putEvents (index : UInt64) (entries : List (Bytes × Bytes)) : List WatchEvent :=
  entries.map fun (key, val) => WatchEvent.put index key val

theorem finalValues_snoc (entries : List (Bytes × Bytes)) (key val : Bytes) :
    finalValues (entries ++ [(key, val)]) = (finalValues entries).insert key val := by
  unfold finalValues
  rw [List.foldl_append]
  rfl

/-- Following puts, the later of the same key over the earlier. -/
theorem KvMap.getElem?_follow_puts (kv : KvMap) (index : UInt64) (entries : List (Bytes × Bytes)) (key : Bytes) :
    (kv.follow (putEvents index entries))[key]? =
      (((finalValues entries)[key]?).map fun val => (⟨val, index⟩ : Entry)).or kv[key]? := by
  induction entries using List.reverseRecOn with
  | nil => rfl
  | append_singleton entries last ih =>
      obtain ⟨k, v⟩ := last
      have hfollow : kv.follow (putEvents index (entries ++ [(k, v)])) =
          (kv.follow (putEvents index entries)).insert k ⟨v, index⟩ := by
        unfold putEvents KvMap.follow
        rw [List.map_append, List.foldl_append]
        rfl
      rw [hfollow, finalValues_snoc, OrdMap.getElem?_insert, OrdMap.getElem?_insert]
      by_cases h : key = k
      · rw [if_pos h, if_pos h]
        rfl
      · rw [if_neg h, if_neg h, ih]

/-- Listing the last values again gives the last values. -/
theorem finalValues_toList (entries : List (Bytes × Bytes)) :
    finalValues (finalValues entries).toList = finalValues entries :=
  OrdMap.foldl_insert_toList (finalValues entries)

/-! ## What an entry emits -/

/-- Events of one entry: they carry its index, and each key has one. -/
structure Batch (index : UInt64) (events : List WatchEvent) : Prop where
  index : ∀ ev ∈ events, ev.index = index
  keys : events.Pairwise fun a b => a.key ≠ b.key

theorem batch_nil (index : UInt64) : Batch index [] := ⟨nofun, .nil⟩

theorem batch_singleton {index : UInt64} {ev : WatchEvent} (h : ev.index = index) : Batch index [ev] := by
  refine ⟨?_, List.pairwise_singleton _ _⟩
  intro ev' hev'
  rw [List.mem_singleton.mp hev', h]

/-- The events of a write are a batch, and folding them into the map is what the write does. -/
theorem Write.events_exec (op : Write) (index : UInt64) (kv : KvMap) :
    Batch index (op.exec index kv).2.2 ∧ (op.exec index kv).1 = kv.follow (op.exec index kv).2.2 := by
  cases op with
  | put key val => exact ⟨batch_singleton rfl, rfl⟩
  | delete key => exact ⟨batch_singleton rfl, rfl⟩
  | multiPut entries =>
      refine ⟨⟨?_, ?_⟩, ?_⟩
      · intro ev hev
        obtain ⟨x, -, rfl⟩ := List.mem_map.mp hev
        rfl
      · show ((finalValues entries).toList.map _).Pairwise _
        rw [List.pairwise_map]
        refine (Std.ExtTreeMap.distinct_keys_toList (t := finalValues entries)).imp ?_
        intro a b hne heq
        apply hne
        show compare a.1 b.1 = .eq
        rw [show a.1 = b.1 from heq]
        exact Std.ReflCmp.compare_self
      · -- the map takes every pair, the events are the last ones of each key
        have hall : (Write.exec index kv (.multiPut entries)).1 = kv.follow (putEvents index entries) := by
          unfold putEvents KvMap.follow
          rw [List.foldl_map]
          rfl
        rw [hall]
        show _ = kv.follow (putEvents index (finalValues entries).toList)
        refine Std.ExtTreeMap.ext_getElem? fun key => ?_
        rw [kv.getElem?_follow_puts, kv.getElem?_follow_puts, finalValues_toList]
  | cas key pred success =>
      simp only [Write.exec]
      split_ifs
      · cases success with
        | put value => exact ⟨batch_singleton rfl, rfl⟩
        | delete => exact ⟨batch_singleton rfl, rfl⟩
      · exact ⟨batch_nil index, rfl⟩

/-- An applied entry emits a batch, and folding it into the map before gives the map after. -/
theorem Store.kv_apply {st st' : Store} {index : UInt64} {command : Bytes} {applied : Applied}
    (h : st.apply index command = (.ok applied, st')) :
    Batch index applied.events ∧ st'.kv = st.kv.follow applied.events := by
  obtain ⟨rfl, c, -, hperform⟩ := Store.of_apply_ok h
  cases c with
  | noop =>
      cases hperform
      exact ⟨batch_nil _, rfl⟩
  | sessionGc sessions =>
      cases hperform
      exact ⟨batch_nil _, rfl⟩
  | write session op =>
      rw [Store.perform] at hperform
      cases hsession : st.sessions[session]? with
      | some record =>
          rw [Store.write_of_recorded hsession] at hperform
          cases hperform
          exact ⟨batch_nil _, rfl⟩
      | none =>
          rw [Store.write_of_fresh hsession] at hperform
          cases hperform
          exact op.events_exec (st.applied + 1) st.kv

/-- **Events and values.** An applied entry emits a batch, and replaying it over the values before gives the values
after. -/
theorem Store.values_apply {st st' : Store} {index : UInt64} {command : Bytes} {applied : Applied}
    (h : st.apply index command = (.ok applied, st')) :
    Batch index applied.events ∧ st'.kv.values = replay st.kv.values applied.events := by
  obtain ⟨hbatch, hkv⟩ := Store.kv_apply h
  refine ⟨hbatch, ?_⟩
  rw [hkv, KvMap.values_follow]

/-! ## Entries that change nothing -/

/-- A command that leaves the map of a store alone: a no-op, a collection of sessions, a write whose session is
in the table, or a compare-and-swap whose predicate does not match. -/
def Command.Idle (st : Store) : Command → Prop
  | .noop => True
  | .sessionGc _ => True
  | .write session (.cas key pred _) => session ∈ st.sessions ∨ pred.matched st.kv[key]? = false
  | .write session _ => session ∈ st.sessions

theorem Write.exec_of_unmatched {key : Bytes} {pred : CasPred} {kv : KvMap} (h : pred.matched kv[key]? = false)
    (index : UInt64) (success : CasOp) : Write.exec index kv (.cas key pred success) = (kv, casFailure kv[key]?, []) := by
  simp only [Write.exec, h, Bool.false_eq_true, if_false]

theorem Store.perform_of_recorded {st : Store} {session : SessionKey} (h : session ∈ st.sessions) (op : Write) :
    (st.perform (.write session op)).1.events = [] ∧ (st.perform (.write session op)).2.kv = st.kv := by
  obtain ⟨record, hrecord⟩ := Option.isSome_iff_exists.mp (Std.ExtTreeMap.isSome_getElem?_iff_mem.mpr h)
  rw [Store.perform, Store.write_of_recorded hrecord]
  exact ⟨rfl, rfl⟩

theorem Store.perform_of_idle {st : Store} {c : Command} (h : c.Idle st) :
    (st.perform c).1.events = [] ∧ (st.perform c).2.kv = st.kv := by
  cases c with
  | noop => exact ⟨rfl, rfl⟩
  | sessionGc sessions => exact ⟨rfl, rfl⟩
  | write session op =>
      cases op with
      | put key val => exact Store.perform_of_recorded h _
      | delete key => exact Store.perform_of_recorded h _
      | multiPut entries => exact Store.perform_of_recorded h _
      | cas key pred success =>
          by_cases hsession : session ∈ st.sessions
          · exact Store.perform_of_recorded hsession _
          · have hnone : st.sessions[session]? = none := Std.ExtTreeMap.getElem?_eq_none hsession
            rw [Store.perform, Store.write_of_fresh hnone, Write.exec_of_unmatched (h.resolve_left hsession)]
            exact ⟨rfl, rfl⟩

/-- **Events describe the change exactly.** Folding the events of an applied entry into the map before gives the map
after, they carry the entry's index and no key twice, and an entry whose command is idle emits none. -/
theorem events_exact {st st' : Store} {index : UInt64} {command : Bytes} {applied : Applied}
    (h : st.apply index command = (.ok applied, st')) :
    st'.kv = st.kv.follow applied.events ∧
      (∀ ev ∈ applied.events, ev.index = index) ∧
      applied.events.Pairwise (fun a b => a.key ≠ b.key) ∧
      ∀ c, Command.decode command = .ok c → c.Idle st → applied.events = [] ∧ st'.kv = st.kv := by
  obtain ⟨hbatch, hkv⟩ := Store.kv_apply h
  refine ⟨hkv, hbatch.index, hbatch.keys, ?_⟩
  intro c hdecode hidle
  obtain ⟨-, c', hdecode', hperform⟩ := Store.of_apply_ok h
  obtain rfl := Except.ok.inj (hdecode.symm.trans hdecode')
  have hnone := Store.perform_of_idle hidle
  rwa [hperform] at hnone

/-- A `multi_put` that names a key twice emits one event for it, with the later value. -/
theorem events_exact_repeatedKey :
    ∃ applied st', Store.new.apply 1 (encodeMultiPut ⟨7, 1⟩ [([1], [10]), ([2], [20]), ([1], [11])]) = (.ok applied, st') ∧
      applied.events = [.put 1 [1] [11], .put 1 [2] [20]] ∧ st'.kv = KvMap.follow ∅ applied.events := by
  have happly : Store.new.apply 1 (encodeMultiPut ⟨7, 1⟩ [([1], [10]), ([2], [20]), ([1], [11])]) =
      (.ok ⟨.none, 1, [.put 1 [1] [11], .put 1 [2] [20]]⟩,
        (Store.new.apply 1 (encodeMultiPut ⟨7, 1⟩ [([1], [10]), ([2], [20]), ([1], [11])])).2) :=
    Prod.ext (by decide +kernel) rfl
  exact ⟨_, _, happly, rfl, (events_exact happly).1⟩

end Arachne.StateMachine
