import Arachne.StateMachine.Events
import Arachne.StateMachine.Snapshot

/-! # Where a value came from

Every value in the map carries the index of the log entry that wrote it, and a compare-and-swap may be made
conditional on it. This module says what the index means. Beside the store, a history records for every applied
entry the keys it put or deleted (`Effect`); a replayed session and a failed compare write none. `Reached history st`
are the stores that applying entries and restoring snapshots lead to, where a restored store takes over the history
of the one it was taken of.

The index of a value is that of the last effect on its key (`origin_exact`). Since no two entries of a history share
an index, an index that still matches means that nothing has touched the key in between. -/

namespace Arachne.StateMachine

open Codec

/-! ## The effects of entries -/

/-- An applied entry: its index, and the keys it put or deleted. -/
structure Effect where
  index : UInt64
  keys : List Bytes
  deriving DecidableEq, Repr

/-- The keys a write puts or deletes when it is executed. A compare that fails writes nothing. -/
def Write.written (kv : KvMap) : Write → List Bytes
  | .put key _ => [key]
  | .delete key => [key]
  | .multiPut entries => entries.map Prod.fst
  | .cas key pred _ => if pred.matched kv[key]? then [key] else []

/-- The keys a command puts or deletes. A session that is known is answered from the table. -/
def Store.written (st : Store) : Command → List Bytes
  | .write session op => if st.sessions[session]?.isSome then [] else op.written st.kv
  | _ => []

/-- The effect of applying an entry; an entry that is refused has none. -/
def Store.effects (st : Store) (index : UInt64) (command : Bytes) : List Effect :=
  match (st.apply index command).1, Command.decode command with
  | .ok _, .ok c => [⟨index, st.written c⟩]
  | _, _ => []

/-- A store and its history. Log indices start at 1. -/
inductive Reached : List Effect → Store → Prop where
  | new : Reached [] .new
  | apply {history : List Effect} {st : Store} (h : Reached history st) {index : UInt64} (hindex : index ≠ 0)
      (command : Bytes) : Reached (history ++ st.effects index command) (st.apply index command).2
  | restore {history other : List Effect} {st target : Store} (h : Reached history st) (ht : Reached other target)
      (hok : (target.restore st.snapshot).1 = .ok ()) : Reached history (target.restore st.snapshot).2

/-- The indices of the entries that wrote a key, oldest first. -/
def writesOf (history : List Effect) (key : Bytes) : List UInt64 :=
  (history.filter (·.keys.contains key)).map Effect.index

theorem writesOf_append (history more : List Effect) (key : Bytes) :
    writesOf (history ++ more) key = writesOf history key ++ writesOf more key := by
  rw [writesOf, List.filter_append, List.map_append]
  rfl

theorem writesOf_of_mem {effect : Effect} {key : Bytes} (h : key ∈ effect.keys) : writesOf [effect] key = [effect.index] := by
  rw [writesOf, List.filter_cons_of_pos (by simpa using h)]
  rfl

theorem writesOf_of_notMem {effect : Effect} {key : Bytes} (h : key ∉ effect.keys) : writesOf [effect] key = [] := by
  rw [writesOf, List.filter_cons_of_neg (by simpa using h)]
  rfl

/-- `get_with_index`. -/
def Store.getWithIndex (st : Store) (key : Bytes) : Option Bytes × Option UInt64 :=
  match st.kv[key]? with
  | none => (none, none)
  | some e => (some e.val, some e.index)

theorem Store.getWithIndex_snd (st : Store) (key : Bytes) : (st.getWithIndex key).2 = st.kv[key]?.map Entry.index := by
  rw [Store.getWithIndex]
  cases st.kv[key]? with
  | none => rfl
  | some e => rfl

/-! ## What a write leaves in the map -/

/-- Inserting one value of the entry at `index`. -/
theorem index_insert {kv : KvMap} {key k val : Bytes} {index : UInt64} {e : Entry}
    (h : (kv.insert key { val, index } : KvMap)[k]? = some e) : k = key ∧ e.index = index ∨ k ≠ key ∧ kv[k]? = some e := by
  rw [OrdMap.getElem?_insert] at h
  split at h
  · next hk =>
      obtain rfl := Option.some.inj h
      exact .inl ⟨hk, rfl⟩
  · next hk => exact .inr ⟨hk, h⟩

theorem index_erase {kv : KvMap} {key k : Bytes} {e : Entry} (h : (kv.erase key : KvMap)[k]? = some e) :
    k ≠ key ∧ kv[k]? = some e := by
  rw [OrdMap.getElem?_erase, Option.ite_none_left_eq_some] at h
  exact h

theorem index_insertAll {kv : KvMap} {k : Bytes} {index : UInt64} {e : Entry} {entries : List (Bytes × Bytes)}
    (h : (entries.foldl (fun kv (key, val) => kv.insert key { val, index }) kv)[k]? = some e) :
    k ∈ entries.map Prod.fst ∧ e.index = index ∨ k ∉ entries.map Prod.fst ∧ kv[k]? = some e := by
  induction entries generalizing kv with
  | nil => exact .inr ⟨List.not_mem_nil, h⟩
  | cons entry entries ih =>
      rw [List.map_cons, List.mem_cons]
      rcases ih h with ⟨hmem, hindex⟩ | ⟨hnot, hold⟩
      · exact .inl ⟨.inr hmem, hindex⟩
      · rcases index_insert hold with ⟨hk, hindex⟩ | ⟨hk, hold⟩
        · exact .inl ⟨.inl hk, hindex⟩
        · exact .inr ⟨not_or.mpr ⟨hk, hnot⟩, hold⟩

/-- **An executed write** gives its index to the values of the keys it writes, and leaves the others alone. -/
theorem Write.index_exec (op : Write) {index : UInt64} {kv : KvMap} {k : Bytes} {e : Entry}
    (h : (op.exec index kv).1[k]? = some e) :
    k ∈ op.written kv ∧ e.index = index ∨ k ∉ op.written kv ∧ kv[k]? = some e := by
  cases op with
  | put key val =>
      rw [Write.written, List.mem_singleton]
      exact index_insert h
  | delete key =>
      rw [Write.written, List.mem_singleton]
      exact .inr (index_erase h)
  | multiPut entries => exact index_insertAll h
  | cas key pred success =>
      simp only [Write.exec] at h
      rw [Write.written]
      split_ifs at h ⊢
      · rw [List.mem_singleton]
        cases success with
        | put value => exact index_insert h
        | delete => exact .inr (index_erase h)
      · exact .inr ⟨List.not_mem_nil, h⟩

/-- The keys a write puts or deletes are those it emits events for. -/
theorem Write.mem_written_iff (op : Write) (index : UInt64) (kv : KvMap) (key : Bytes) :
    key ∈ op.written kv ↔ ∃ ev ∈ (op.exec index kv).2.2, ev.key = key := by
  cases op with
  | put k val => simp [Write.written, Write.exec, WatchEvent.put, eq_comm]
  | delete k => simp [Write.written, Write.exec, WatchEvent.delete, eq_comm]
  | multiPut entries =>
      have hfinal : ∀ xs : List (Bytes × Bytes), key ∈ xs.map Prod.fst ↔ (finalValues xs)[key]? ≠ none := by
        intro xs
        induction xs using List.reverseRecOn with
        | nil => simp [finalValues]
        | append_singleton xs last ih =>
            rw [finalValues, List.foldl_append, ← finalValues, List.foldl_cons, List.foldl_nil,
              OrdMap.getElem?_insert, List.map_append, List.mem_append, ih]
            by_cases h : key = last.1
            · simp [h]
            · simp [h]
      rw [Write.written, hfinal, Option.ne_none_iff_exists']
      simp only [Write.exec, List.mem_map, Prod.exists, ← Std.ExtTreeMap.mem_toList_iff_getElem?_eq_some]
      constructor
      · rintro ⟨val, hmem⟩
        exact ⟨_, ⟨key, val, hmem, rfl⟩, rfl⟩
      · rintro ⟨_, ⟨k, val, hmem, rfl⟩, rfl⟩
        exact ⟨val, hmem⟩
  | cas k pred success =>
      simp only [Write.exec]
      rw [Write.written]
      split_ifs
      · cases success with
        | put value => simp [WatchEvent.put, eq_comm]
        | delete => simp [WatchEvent.delete, eq_comm]
      · simp

/-- The keys an applied entry wrote are those it emits events for. -/
theorem Store.mem_written_iff {st st' : Store} {index : UInt64} {command : Bytes} {c : Command} {applied : Applied}
    (hdecode : Command.decode command = .ok c) (h : st.apply index command = (.ok applied, st')) (key : Bytes) :
    key ∈ st.written c ↔ ∃ ev ∈ applied.events, ev.key = key := by
  obtain ⟨rfl, c', hdecode', hperform⟩ := Store.of_apply_ok h
  obtain rfl : c = c' := Except.ok.inj (hdecode.symm.trans hdecode')
  cases c with
  | noop => cases hperform; simp [Store.written]
  | sessionGc sessions => cases hperform; simp [Store.written]
  | write session op =>
      rw [Store.perform] at hperform
      cases hrecord : st.sessions[session]? with
      | some record =>
          rw [Store.write_of_recorded hrecord] at hperform
          cases hperform
          simp [Store.written, hrecord]
      | none =>
          rw [Store.write_of_fresh hrecord] at hperform
          cases hperform
          rw [Store.written, hrecord, Option.isSome_none, if_neg Bool.false_ne_true]
          exact op.mem_written_iff _ _ key

theorem Store.index_perform (st : Store) (c : Command) {k : Bytes} {e : Entry}
    (h : (st.perform c).2.kv[k]? = some e) :
    k ∈ st.written c ∧ e.index = st.applied + 1 ∨ k ∉ st.written c ∧ st.kv[k]? = some e := by
  cases c with
  | noop => exact .inr ⟨List.not_mem_nil, h⟩
  | sessionGc sessions => exact .inr ⟨List.not_mem_nil, h⟩
  | write session op =>
      rw [Store.perform] at h
      cases hrecord : st.sessions[session]? with
      | some record =>
          rw [Store.write_of_recorded hrecord] at h
          rw [Store.written, hrecord, Option.isSome_some, if_pos rfl]
          exact .inr ⟨List.not_mem_nil, h⟩
      | none =>
          rw [Store.write_of_fresh hrecord] at h
          rw [Store.written, hrecord, Option.isSome_none, if_neg Bool.false_ne_true]
          exact op.index_exec h

/-! ## What a snapshot keeps -/

theorem readOutcome_fits : Reader.Yields readOutcome ApplyOutcome.Fits := by
  refine .bind (.any _) fun tag _ => ?_
  split
  · exact .pure trivial
  · exact .bind .sizedBytes fun _ hval => .pure hval
  · refine .bind (.any _) fun currentIndex _ => .bind (P := fun current => ∀ val ∈ current, Short val) ?_
      fun _ hcurrent => .pure hcurrent
    refine .bind (.any _) fun tag _ => ?_
    split
    · refine .bind .sizedBytes fun val hval => .pure fun val' hval' => ?_
      obtain rfl := Option.some.inj hval'
      exact hval
    · exact .pure fun val hval => absurd hval (Option.not_mem_none val)
    · exact .reject
  · exact .reject

/-- Whatever a snapshot is read from, the store fits: each length was read from a field. -/
theorem readStore_fits : Reader.Yields readStore Store.Fits := by
  refine .bind (.any _) fun _ _ => .bind (.any _) fun _ _ => .bind (.any _) fun applied _ => .bind (.any _) fun kvLen _ =>
    .bind (.iterate (I := KvMap.Fits) (fun kv hkv => ?_) kvLen ?_) fun kv hkv => .bind (.any _) fun sessLen _ =>
    .bind (.iterate (I := fun sessions : SessionTable => ∀ (session : SessionKey) (record : SessionRecord),
      sessions[session]? = some record → record.outcome.Fits) (fun sessions hsessions => ?_) sessLen ?_)
      fun sessions hsessions => .pure ⟨hkv, hsessions⟩
  · exact .bind .sizedBytes fun key hkey => .bind .sizedBytes fun val hval => .bind (.any _) fun index _ =>
      .pure (hkv.insert hkey hval index)
  · intro key entry hentry
    cases hentry
  · exact .bind (.any _) fun session _ => .bind readOutcome_fits fun outcome houtcome => .bind (.any _) fun index _ =>
      .pure (OrdMap.forall_insert hsessions houtcome)
  · intro session record hrecord
    cases hrecord

/-- The first entries a map lists are a part of it. -/
theorem getElem?_of_firstEntries {kv : KvMap} {count : Nat} {k : Bytes} {e : Entry}
    (h : ((kv.toList.take count).foldl (fun kv x => kv.insert x.1 x.2) (∅ : KvMap))[k]? = some e) : kv[k]? = some e := by
  have hdistinct := (OrdMap.nodup_fst_toList kv).sublist ((List.take_sublist count _).map Prod.fst)
  rcases (OrdMap.getElem?_foldl_insert hdistinct ∅ k e).mp h with hin | ⟨-, hnone⟩
  · exact Std.ExtTreeMap.mem_toList_iff_getElem?_eq_some.mp (List.mem_of_mem_take hin)
  · cases hnone

/-- Restoring a snapshot gives no value another origin. This holds of a store of any size: if its number of keys does
not fit the field, the restored map lacks some of them. -/
theorem kv_of_decodeStore {st st' : Store} (hfits : st.Fits) (h : decodeStore st.snapshot = .ok st') {k : Bytes} {e : Entry}
    (he : st'.kv[k]? = some e) : st.kv[k]? = some e := by
  obtain ⟨rest, hread⟩ := Reader.eq_some_of_parse_eof h
  obtain ⟨count, hcount⟩ : ∃ count, count = st.kv.size % 2 ^ 32 := ⟨_, rfl⟩
  have hloop := reads_firstEntries
    (fun key entry hentry => reads_kvEntry (x := (key, entry)) (hfits.kv key entry hentry).1 (hfits.kv key entry hentry).2)
    (hcount.trans_le (Nat.mod_le _ _))
  have hsplit : st.kv.toList.flatMap encodeKvEntry =
      (st.kv.toList.take count).flatMap encodeKvEntry ++ (st.kv.toList.drop count).flatMap encodeKvEntry := by
    rw [← List.flatMap_append, List.take_append_drop]
  -- what is read behind the map does not change it
  have hyields : ∀ applied kv, Reader.Yields (do
      let sessLen ← .u32
      let sessions ← .iterate readRecord sessLen ∅
      return ({ applied, kv, sessions } : Store)) fun x => x.kv = kv := fun applied kv =>
    .bind (.any _) fun _ _ => .bind (.any _) fun _ _ => .pure rfl
  rw [Store.snapshot, ← List.singleton_append, readStore, (Reader.Reads.byte kvSnapshotVersion).run_bind,
    guard, if_pos rfl, Reader.bind_apply] at hread
  replace hread := ((Reader.Reads.u64 st.applied).run_bind _ _).symm.trans hread
  rw [(Reader.Reads.u32_mod st.kv.size).run_bind, ← hcount, hsplit, List.append_assoc, hloop.run_bind] at hread
  rw [hyields _ _ _ _ _ hread] at he
  exact getElem?_of_firstEntries he

/-! ## The index of a value -/

/-- A history and a store agree: effects are listed by index, up to the applied one, and the index of a value is that
of the last effect on its key. -/
structure Origin (history : List Effect) (st : Store) : Prop where
  ordered : history.Pairwise (·.index < ·.index)
  bounds : ∀ effect ∈ history, 1 ≤ effect.index ∧ effect.index ≤ st.applied
  last : ∀ key e, st.kv[key]? = some e → (writesOf history key).getLast? = some e.index
  fits : st.Fits

namespace Origin

variable {history : List Effect} {st : Store}

theorem new : Origin [] .new where
  ordered := .nil
  bounds := by simp
  last := by
    intro key e h
    cases h
  fits := Store.Reachable.fits ⟨[], rfl⟩

/-- The indices of the writes of a key increase. -/
theorem writes_ordered (h : Origin history st) (key : Bytes) : (writesOf history key).Pairwise (· < ·) := by
  rw [writesOf, List.pairwise_map]
  exact h.ordered.sublist List.filter_sublist

theorem bounds_of_mem (h : Origin history st) {key : Bytes} {index : UInt64} (hmem : index ∈ writesOf history key) :
    1 ≤ index ∧ index ≤ st.applied := by
  obtain ⟨effect, heffect, rfl⟩ := List.mem_map.mp hmem
  exact h.bounds effect (List.mem_filter.mp heffect).1

/-- Performing a command at the next index, unless the indices are used up. -/
theorem perform (h : Origin history st) {command : Bytes} {c : Command} (hdecode : Command.decode command = .ok c)
    (hnext : st.applied + 1 ≠ 0) : Origin (history ++ [⟨st.applied + 1, st.written c⟩]) (st.perform c).2 := by
  have hlt : st.applied < st.applied + 1 := by
    rw [UInt64.lt_iff_toNat_lt, UInt64.toNat_add]
    have hne : (st.applied + 1).toNat ≠ 0 := fun h0 => hnext (UInt64.toNat_inj.mp h0)
    rw [UInt64.toNat_add] at hne
    have := st.applied.toNat_lt
    simp only [UInt64.reduceToNat] at hne ⊢
    omega
  have happlied := st.applied_perform c
  refine ⟨?_, ?_, ?_, h.fits.perform hdecode⟩
  · refine List.pairwise_append.mpr ⟨h.ordered, List.pairwise_singleton _ _, ?_⟩
    intro effect heffect last hlast
    rw [List.mem_singleton.mp hlast]
    exact UInt64.lt_of_le_of_lt (h.bounds effect heffect).2 hlt
  · intro effect heffect
    rw [happlied]
    rcases List.mem_append.mp heffect with hold | hlast
    · obtain ⟨hpos, hle⟩ := h.bounds effect hold
      exact ⟨hpos, UInt64.le_trans hle (UInt64.le_of_lt hlt)⟩
    · rw [List.mem_singleton.mp hlast]
      refine ⟨?_, UInt64.le_refl _⟩
      rw [UInt64.le_iff_toNat_le]
      exact Nat.pos_of_ne_zero fun h0 => hnext (UInt64.toNat_inj.mp h0)
  · intro key e he
    rw [writesOf_append]
    rcases st.index_perform c he with ⟨hmem, hindex⟩ | ⟨hnot, hold⟩
    · rw [writesOf_of_mem hmem, hindex, List.getLast?_concat]
    · rw [writesOf_of_notMem hnot, List.append_nil]
      exact h.last key e hold

/-- **One entry**, at any log index and whatever its bytes. -/
theorem apply (h : Origin history st) {index : UInt64} (hindex : index ≠ 0) (command : Bytes) :
    Origin (history ++ st.effects index command) (st.apply index command).2 := by
  by_cases hnext : index = st.applied + 1
  · subst hnext
    rw [Store.effects, Store.apply_next]
    cases hdecode : Command.decode command with
    | error e => rw [List.append_nil]; exact h
    | ok c => exact h.perform hdecode hindex
  · rw [Store.effects, Store.apply_of_index_ne hnext, List.append_nil]
    exact h

/-- **A restore** takes over the origins of the store the snapshot was taken of. -/
theorem restore (h : Origin history st) (target : Store) (hok : (target.restore st.snapshot).1 = .ok ()) :
    Origin history (target.restore st.snapshot).2 := by
  rw [Store.restore_eq] at hok ⊢
  cases hdecode : decodeStore st.snapshot with
  | error e => rw [hdecode] at hok; cases hok
  | ok next =>
      refine ⟨h.ordered, ?_, ?_, readStore_fits.parse_eof hdecode⟩
      · rw [applied_of_decodeStore hdecode]
        exact h.bounds
      · intro key e he
        exact h.last key e (kv_of_decodeStore h.fits hdecode he)

end Origin

/-- Every store that is reached agrees with its history. -/
theorem Reached.origin {history : List Effect} {st : Store} (h : Reached history st) : Origin history st := by
  induction h with
  | new => exact .new
  | apply _ hindex command ih => exact ih.apply hindex command
  | restore _ _ hok ih _ => exact ih.restore _ hok

/-- An index that matches is that of the last entry that wrote the key. -/
theorem Origin.le_of_matched {history : List Effect} {st : Store} (h : Origin history st) {key : Bytes} {i : UInt64}
    (hmatch : (CasPred.indexEquals i).matched st.kv[key]? = true) : ∀ index ∈ writesOf history key, index ≤ i := by
  cases hentry : st.kv[key]? with
  | none => rw [hentry] at hmatch; cases hmatch
  | some e =>
      rw [hentry] at hmatch
      obtain rfl : e.index = i := of_decide_eq_true hmatch
      obtain ⟨earlier, hwrites⟩ := List.getLast?_eq_some_iff.mp (h.last key e hentry)
      have hordered := h.writes_ordered key
      rw [hwrites, List.pairwise_append] at hordered
      intro index hmem
      rw [hwrites, List.mem_append, List.mem_singleton] at hmem
      rcases hmem with hmem | rfl
      · exact UInt64.le_of_lt (hordered.2.2 index hmem _ (List.mem_singleton.mpr rfl))
      · exact UInt64.le_refl _

/-- **Origin indices are exact.** The index of a value is that of the last entry that wrote its key, between 1 and the
applied index; the writes of a key have increasing indices; and a compare-and-swap on an index that takes effect finds
no entry beyond that index to have written the key. -/
theorem origin_exact {history : List Effect} {st : Store} (h : Reached history st) :
    (∀ key i, (st.getWithIndex key).2 = some i →
      (writesOf history key).getLast? = some i ∧ 1 ≤ i ∧ i ≤ st.applied) ∧
    (∀ key, (writesOf history key).Pairwise (· < ·)) ∧
    ∀ (index : UInt64) (command : Bytes) (applied : Applied) (st' : Store) (session : SessionKey) (key : Bytes)
      (i : UInt64) (success : CasOp),
      Command.decode command = .ok (.write session (.cas key (.indexEquals i) success)) →
      st.apply index command = (.ok applied, st') → applied.events ≠ [] →
      ∀ effect ∈ history, key ∈ effect.keys → effect.index ≤ i := by
  have horigin := h.origin
  refine ⟨?_, horigin.writes_ordered, ?_⟩
  · intro key i hi
    rw [Store.getWithIndex_snd] at hi
    obtain ⟨e, he, rfl⟩ := Option.map_eq_some_iff.mp hi
    have hlast := horigin.last key e he
    exact ⟨hlast, horigin.bounds_of_mem (List.mem_of_getLast? hlast)⟩
  · intro index command applied st' session key i success hdecode happly hevents effect heffect hkey
    obtain ⟨ev, hev⟩ := List.exists_mem_of_ne_nil _ hevents
    have hwritten := (Store.mem_written_iff hdecode happly ev.key).mpr ⟨ev, hev, rfl⟩
    have hmatch : (CasPred.indexEquals i).matched st.kv[key]? = true := by
      by_contra hno
      rw [Store.written, Write.written, if_neg hno, ite_self] at hwritten
      exact absurd hwritten List.not_mem_nil
    refine horigin.le_of_matched hmatch effect.index (List.mem_map.mpr ⟨effect, ?_, rfl⟩)
    exact List.mem_filter.mpr ⟨heffect, by simpa using hkey⟩

/-- A key that is put, deleted and put again has the index of the second put. -/
theorem origin_exact_recreated : ∃ history st, Reached history st ∧ writesOf history [7] = [1, 2, 3] ∧
    (st.getWithIndex [7]).2 = some 3 ∧ (writesOf history [7]).getLast? = some 3 := by
  have h := ((Reached.new.apply (show (1 : UInt64) ≠ 0 by decide) (encodePut ⟨1, 1⟩ [7] [10])).apply
    (show (2 : UInt64) ≠ 0 by decide) (encodeDelete ⟨1, 2⟩ [7])).apply
    (show (3 : UInt64) ≠ 0 by decide) (encodePut ⟨1, 3⟩ [7] [10])
  refine ⟨_, _, h, by decide +kernel, ?_⟩
  rw [and_iff_left_of_imp fun hget => ((origin_exact h).1 [7] 3 hget).1]
  decide +kernel

end Arachne.StateMachine
