import Arachne.StateMachine.Format

/-! # Which snapshots are canonical

A snapshot is two counted tables behind a header, and `decode_store` reads each table into a map. What the bytes say is
therefore more than what the store keeps: a `Listing` has the tables in the order of the bytes, with whatever keys occur
twice. Bytes that are accepted are the encoding of a listing, to the last byte (`consumes_store`), and a snapshot taken of
the store lists its maps (`snapshot_eq_encode`). So the two are the same bytes exactly if the listing is in the order of
the maps.

Nothing checks that. A listing out of order, or with a key twice, is accepted, and the store gives other bytes back. -/

namespace Arachne.StateMachine

open Codec

/-! ## Listings -/

/-- The content of a snapshot as its bytes list it. -/
structure Listing where
  applied : UInt64
  kv : List (Bytes × Entry)
  sessions : List (SessionKey × SessionRecord)
  deriving DecidableEq

namespace Listing

/-- The layout of `snapshot`, for tables in any order. -/
def encode (l : Listing) : Bytes :=
  kvSnapshotVersion :: (u64Bytes l.applied ++
    (u32Bytes l.kv.length ++ (l.kv.flatMap encodeKvEntry ++
      (u32Bytes l.sessions.length ++ l.sessions.flatMap encodeRecord))))

/-- What `decode_store` makes of the tables. -/
def store (l : Listing) : Store where
  applied := l.applied
  kv := l.kv.foldl (fun kv x => kv.insert x.1 x.2) ∅
  sessions := l.sessions.foldl (fun sessions x => sessions.insert x.1 x.2) ∅

/-- Counts and lengths are within their fields. -/
structure Fits (l : Listing) : Prop where
  kvLen : l.kv.length < 2 ^ 32
  kv : ∀ x ∈ l.kv, Short x.1 ∧ Short x.2.val
  sessLen : l.sessions.length < 2 ^ 32
  sessions : ∀ x ∈ l.sessions, x.2.outcome.Fits

/-- Keys and sessions ascend strictly: in order, and none of them twice. -/
def InOrder (l : Listing) : Prop := OrdMap.Ascending l.kv ∧ OrdMap.Ascending l.sessions

instance (l : Listing) : Decidable l.InOrder := inferInstanceAs (Decidable (_ ∧ _))

end Listing

/-- The maps of a store, listed. -/
def Store.listing (st : Store) : Listing := ⟨st.applied, st.kv.toList, st.sessions.toList⟩

theorem Store.inOrder_listing (st : Store) : st.listing.InOrder :=
  ⟨OrdMap.ascending_toList st.kv, OrdMap.ascending_toList st.sessions⟩

theorem Store.snapshot_eq_encode (st : Store) : st.snapshot = st.listing.encode := by
  rw [Store.snapshot, ← Std.ExtTreeMap.length_toList, ← Std.ExtTreeMap.length_toList]
  rfl

/-- A listing in order is that of its store. -/
theorem Listing.InOrder.listing_store {l : Listing} (h : l.InOrder) : l.store.listing = l := by
  rw [Store.listing, Listing.store]
  simp only [h.1.toList_foldl_insert, h.2.toList_foldl_insert]

/-! ## What is accepted -/

theorem consumes_currentValue : Reader.Consumes readCurrentValue fun currentValue used =>
    used = encodeCurrentValue currentValue ∧ ∀ val ∈ currentValue, Short val := by
  refine .bind .byte ?_
  rintro tag _ rfl
  split
  · refine .bind .sizedBytes ?_
    rintro val _ ⟨rfl, hval⟩
    refine .pure ⟨by rw [List.append_nil]; rfl, ?_⟩
    intro val' hmem
    obtain rfl := Option.some.inj hmem
    exact hval
  · exact .pure ⟨rfl, fun _ hmem => (nomatch hmem)⟩
  · exact .reject

theorem consumes_outcome : Reader.Consumes readOutcome fun outcome used =>
    used = encodeOutcome outcome ∧ outcome.Fits := by
  refine .bind .byte ?_
  rintro tag _ rfl
  split
  · exact .pure ⟨rfl, trivial⟩
  · refine .bind .sizedBytes ?_
    rintro val _ ⟨rfl, hval⟩
    exact .pure ⟨by rw [List.append_nil]; rfl, hval⟩
  · refine .bind .u64 ?_
    rintro currentIndex _ rfl
    refine .bind consumes_currentValue ?_
    rintro currentValue _ ⟨rfl, hvalue⟩
    exact .pure ⟨by simp [encodeOutcome], hvalue⟩
  · exact .reject

theorem consumes_kvEntry (kv : KvMap) : Reader.Consumes (readKvEntry kv) fun kv' used =>
    ∃ x, (Short x.1 ∧ Short x.2.val) ∧ used = encodeKvEntry x ∧ kv' = kv.insert x.1 x.2 := by
  refine .bind .sizedBytes ?_
  rintro key _ ⟨rfl, hkey⟩
  refine .bind .sizedBytes ?_
  rintro val _ ⟨rfl, hval⟩
  refine .bind .u64 ?_
  rintro index _ rfl
  exact .pure ⟨(key, { val, index }), ⟨hkey, hval⟩, by simp [encodeKvEntry], rfl⟩

theorem consumes_record (sessions : SessionTable) : Reader.Consumes (readRecord sessions) fun sessions' used =>
    ∃ x : SessionKey × SessionRecord, x.2.outcome.Fits ∧ used = encodeRecord x ∧ sessions' = sessions.insert x.1 x.2 := by
  refine .bind consumes_session ?_
  rintro session _ rfl
  refine .bind consumes_outcome ?_
  rintro outcome _ ⟨rfl, hfits⟩
  refine .bind .u64 ?_
  rintro index _ rfl
  exact .pure ⟨(session, { outcome, index }), hfits, by simp [encodeRecord], rfl⟩

/-- A loop that reads a table has read a list of its entries, and inserted them one after the other. -/
theorem consumes_table {α β : Type} [Ord α] [Std.TransOrd α] {body : Std.ExtTreeMap α β → Reader (Std.ExtTreeMap α β)}
    {enc : α × β → Bytes} {P : α × β → Prop}
    (h : ∀ m : Std.ExtTreeMap α β, Reader.Consumes (body m) fun m' used =>
      ∃ x, P x ∧ used = enc x ∧ m' = m.insert x.1 x.2) (n : Nat) :
    Reader.Consumes (.iterate body n ∅) fun m used => ∃ xs : List (α × β), xs.length = n ∧ (∀ x ∈ xs, P x) ∧
      used = xs.flatMap enc ∧ m = xs.foldl (fun m x => m.insert x.1 x.2) (∅ : Std.ExtTreeMap α β) := by
  have hloop : Reader.Consumes (.iterate body n ∅) fun m more => ∃ xs : List (α × β), xs.length = 0 + n ∧ (∀ x ∈ xs, P x) ∧
      [] ++ more = xs.flatMap enc ∧ m = xs.foldl (fun m x => m.insert x.1 x.2) (∅ : Std.ExtTreeMap α β) := by
    refine Reader.Consumes.iterate (I := fun i m used => ∃ xs : List (α × β), xs.length = i ∧ (∀ x ∈ xs, P x) ∧
      used = xs.flatMap enc ∧ m = xs.foldl (fun m x => m.insert x.1 x.2) (∅ : Std.ExtTreeMap α β)) ?_ n
      ⟨[], rfl, by simp, rfl, rfl⟩
    rintro i m used ⟨xs, rfl, hxs, rfl, rfl⟩ bs m' rest hread
    obtain ⟨more, hbs, x, hx, rfl, rfl⟩ := h _ bs m' rest hread
    refine ⟨_, hbs, xs ++ [x], by simp, ?_, by simp, by simp⟩
    exact List.forall_mem_append.mpr ⟨hxs, List.forall_mem_singleton.mpr hx⟩
  simpa only [Nat.zero_add, List.nil_append] using hloop

/-- **What is read is a listing**, and the store is what it makes. -/
theorem consumes_store : Reader.Consumes readStore fun st used => ∃ l : Listing, l.Fits ∧ used = l.encode ∧ st = l.store := by
  refine .bind .byte ?_
  rintro version _ rfl
  refine .bind (.check _) ?_
  rintro - _ ⟨rfl, rfl⟩
  refine .bind .u64 ?_
  rintro applied _ rfl
  refine .bind .u32 ?_
  rintro _ _ ⟨rfl, hkvLen⟩
  refine .bind (consumes_table consumes_kvEntry _) ?_
  rintro _ _ ⟨kv, rfl, hkv, rfl, rfl⟩
  refine .bind .u32 ?_
  rintro _ _ ⟨rfl, hsessLen⟩
  refine .bind (consumes_table consumes_record _) ?_
  rintro _ _ ⟨sessions, rfl, hsessions, rfl, rfl⟩
  exact .pure ⟨⟨applied, kv, sessions⟩, ⟨hkvLen, hkv, hsessLen, hsessions⟩, by simp [Listing.encode], rfl⟩

/-! ## Bytes determine their listing -/

def readKvPair : Reader (Bytes × Entry) := do
  let key ← .sizedBytes
  let val ← .sizedBytes
  let index ← .u64
  return (key, { val, index })

def readSessionPair : Reader (SessionKey × SessionRecord) := do
  let session ← readSession
  let outcome ← readOutcome
  let index ← .u64
  return (session, { outcome, index })

/-- Read the tables as lists. -/
def readListing : Reader Listing := do
  let version ← .byte
  guard (version = kvSnapshotVersion)
  let applied ← .u64
  let kvLen ← .u32
  let kv ← .many readKvPair kvLen
  let sessLen ← .u32
  let sessions ← .many readSessionPair sessLen
  return { applied, kv, sessions }

theorem reads_kvPair {x : Bytes × Entry} (hkey : Short x.1) (hval : Short x.2.val) :
    Reader.Reads readKvPair (encodeKvEntry x) x :=
  .bind (.sizedBytes hkey) (.bind (.sizedBytes hval) (.bind_pure (.u64 x.2.index) _))

theorem reads_sessionPair {x : SessionKey × SessionRecord} (h : x.2.outcome.Fits) :
    Reader.Reads readSessionPair (encodeRecord x) x :=
  .bind (reads_session x.1) (.bind (reads_outcome h) (.bind_pure (.u64 x.2.index) _))

namespace Listing.Fits

variable {l l' : Listing}

theorem reads (h : l.Fits) : Reader.Reads readListing l.encode l := by
  have hkv : Reader.Reads (.many readKvPair l.kv.length) (l.kv.flatMap encodeKvEntry) l.kv :=
    .many fun x hx => reads_kvPair (h.kv x hx).1 (h.kv x hx).2
  have hsessions : Reader.Reads (.many readSessionPair l.sessions.length) (l.sessions.flatMap encodeRecord) l.sessions :=
    .many fun x hx => reads_sessionPair (h.sessions x hx)
  exact .bind_byte (.check rfl (.bind (.u64 l.applied) (.bind (.u32 h.kvLen) (.bind hkv
    (.bind (.u32 h.sessLen) (.bind_pure hsessions _))))))

theorem encode_inj (h : l.Fits) (h' : l'.Fits) (heq : l.encode = l'.encode) : l = l' := by
  have hread := h.reads []
  rw [heq, h'.reads []] at hread
  exact (Prod.mk.inj (Option.some.inj hread)).1.symm

theorem listing_store (h : l.Fits) : l.store.listing.Fits := by
  have hkv := OrdMap.size_foldl_insert_le l.kv ∅
  have hsessions := OrdMap.size_foldl_insert_le l.sessions ∅
  rw [Std.ExtTreeMap.size_empty, Nat.zero_add, ← Std.ExtTreeMap.length_toList] at hkv hsessions
  exact ⟨Nat.lt_of_le_of_lt hkv h.kvLen, OrdMap.forall_foldl_insert h.kv (by simp),
    Nat.lt_of_le_of_lt hsessions h.sessLen, OrdMap.forall_foldl_insert h.sessions (by simp)⟩

/-- The store that was read from a listing gives the listing back exactly if it is in order. -/
theorem snapshot_store_iff (h : l.Fits) : l.store.snapshot = l.encode ↔ l.InOrder := by
  rw [Store.snapshot_eq_encode]
  constructor
  · intro heq
    rw [← h.listing_store.encode_inj h heq]
    exact l.store.inOrder_listing
  · intro horder
    rw [horder.listing_store]

end Listing.Fits

/-! ## Canonical snapshots -/

/-- **Accepted bytes are the snapshot of the store they restore exactly if they list it in order.** They are the encoding
of a listing and nothing else, and the store is that of the listing. -/
theorem snapshot_of_restored {target st : Store} {bytes : Bytes} (hok : target.restore bytes = (.ok (), st)) :
    ∃ l : Listing, l.Fits ∧ bytes = l.encode ∧ st = l.store ∧ (st.snapshot = bytes ↔ l.InOrder) := by
  have hdecode : decodeStore bytes = .ok st := by
    rw [Store.restore_eq] at hok
    split at hok
    · cases hok
    · next next hnext =>
        obtain ⟨-, rfl⟩ := Prod.mk.inj hok
        exact hnext
  obtain ⟨l, hfits, rfl, rfl⟩ := consumes_store.parse_eof hdecode
  exact ⟨l, hfits, rfl, rfl, hfits.snapshot_store_iff⟩

/-- A store with two keys and a session, from its snapshot. -/
def sampleListing : Listing := ⟨3, [([1], ⟨[10], 1⟩), ([2], ⟨[20], 2⟩)], [(⟨1, 1⟩, ⟨.none, 3⟩)]⟩

theorem snapshot_of_restored_sample :
    Store.new.restore sampleListing.encode = (.ok (), sampleListing.store) ∧
      sampleListing.store.snapshot = sampleListing.encode := by
  have hok : Store.new.restore sampleListing.encode = (.ok (), sampleListing.store) := by decide +kernel
  obtain ⟨l, hfits, henc, -, hiff⟩ := snapshot_of_restored hok
  have hsample : sampleListing.Fits := ⟨by decide, by decide, by decide, by simp [sampleListing, ApplyOutcome.Fits]⟩
  rw [← hsample.encode_inj hfits henc] at hiff
  exact ⟨hok, hiff.mpr (by decide)⟩

/-- A snapshot with its keys out of order. -/
def unorderedKeys : Listing := ⟨2, [([2], ⟨[20], 2⟩), ([1], ⟨[10], 1⟩)], []⟩

/-- A snapshot with a key twice. -/
def repeatedKey : Listing := ⟨2, [([1], ⟨[10], 1⟩), ([1], ⟨[20], 2⟩)], []⟩

/-- A snapshot with a session twice. -/
def repeatedSession : Listing := ⟨2, [], [(⟨1, 1⟩, ⟨.none, 1⟩), (⟨1, 1⟩, ⟨.none, 2⟩)]⟩

/-- **Snapshots out of order and with a key or session twice are accepted**, and give other bytes back. -/
theorem restore_accepts_unordered :
    (Store.new.restore unorderedKeys.encode = (.ok (), unorderedKeys.store) ∧
      unorderedKeys.store.snapshot ≠ unorderedKeys.encode) ∧
    (Store.new.restore repeatedKey.encode = (.ok (), repeatedKey.store) ∧
      repeatedKey.store.snapshot ≠ repeatedKey.encode) ∧
    Store.new.restore repeatedSession.encode = (.ok (), repeatedSession.store) ∧
      repeatedSession.store.snapshot ≠ repeatedSession.encode := by
  have hkeys : unorderedKeys.Fits := ⟨by decide, by decide, by decide, fun _ hx => absurd hx List.not_mem_nil⟩
  have hkey : repeatedKey.Fits := ⟨by decide, by decide, by decide, fun _ hx => absurd hx List.not_mem_nil⟩
  have hsession : repeatedSession.Fits :=
    ⟨by decide, by decide, by decide, by simp [repeatedSession, ApplyOutcome.Fits]⟩
  refine ⟨⟨by decide +kernel, ?_⟩, ⟨by decide +kernel, ?_⟩, by decide +kernel, ?_⟩
  · exact hkeys.snapshot_store_iff.not.mpr (by decide)
  · exact hkey.snapshot_store_iff.not.mpr (by decide)
  · exact hsession.snapshot_store_iff.not.mpr (by decide)

end Arachne.StateMachine
