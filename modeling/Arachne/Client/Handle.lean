import Arachne.Forward.Wire
import Arachne.StateMachine.Encode

/-! # The writing side of a handle

`put`, `delete`, `multi_put` and `cas` validate their arguments against the limits of the profile, take the
next sequence number of the handle, encode the command under that session and propose it. The variants that
return an index differ in the shape of the reply only. -/

namespace Arachne.Client

open Codec (Bytes)
open Forward (ArachneError)
open StateMachine (Write CasPred CasOp SessionKey Short maxMultiPutEntries)

variable {Addr : Type}

/-- What a handle needs to write: its session identity, the next sequence number, and the limits. -/
structure Handle where
  clientId : UInt64
  seq : UInt64
  maxKeyBytes : Nat
  maxValueBytes : Nat
  deriving DecidableEq, Repr

def fnvOffsetBasis : UInt64 := 0xcbf29ce484222325
def fnvPrime : UInt64 := 0x100000001b3

/-- One round of the hash. -/
def fnvStep (hash : UInt64) (byte : UInt8) : UInt64 := (hash ^^^ byte.toUInt64) * fnvPrime

/-- `client_id_for`: the id of the handle a node makes at a value of the process's counter. -/
def clientIdFor (nodeId : String) (counter : UInt64) : UInt64 :=
  (nodeId.toUTF8.data.toList ++ Codec.u64Bytes counter).foldl fnvStep fnvOffsetBasis

/-- A command on its way to an actor, with the session it is to be registered under. -/
structure Proposal where
  cmd : Bytes
  clientId : UInt64
  seqNo : UInt64
  deriving DecidableEq, Repr

def maxMultiPutTotalBytes : Nat := 4 * 1024 * 1024

/-! ## Validation -/

/-- A byte string within its limit. -/
def validateSize (what bound : String) (bs : Bytes) (limit : Nat) : Except (ArachneError Addr) Unit :=
  let len := bs.length
  if len > limit then throw (.invalidArgument s!"{what} of {len} bytes exceeds {bound} ({limit})")
  else pure ()

def Handle.validateKey (h : Handle) (key : Bytes) : Except (ArachneError Addr) Unit :=
  validateSize "key" "max_key_bytes" key h.maxKeyBytes

def Handle.validatePut (h : Handle) (key value : Bytes) : Except (ArachneError Addr) Unit := do
  h.validateKey key
  validateSize "value" "max_value_bytes" value h.maxValueBytes

def Handle.validateMultiPut (h : Handle) (entries : List (Bytes × Bytes)) : Except (ArachneError Addr) Unit := do
  let count := entries.length
  if entries.isEmpty then throw (.invalidArgument "multi_put requires at least one entry")
  if count > maxMultiPutEntries then
    throw (.invalidArgument s!"multi_put of {count} entries exceeds MAX_MULTI_PUT_ENTRIES ({maxMultiPutEntries})")
  entries.forM fun (key, value) => do
    h.validateKey key
    validateSize "multi_put value" "max_value_bytes" value h.maxValueBytes
  let total := (entries.map fun (key, value) => key.length + value.length).sum
  if total > maxMultiPutTotalBytes then
    throw (.invalidArgument
      s!"multi_put total {total} bytes exceeds MAX_MULTI_PUT_TOTAL_BYTES ({maxMultiPutTotalBytes})")

def Handle.validateCas (h : Handle) (key : Bytes) (pred : CasPred) (success : CasOp) :
    Except (ArachneError Addr) Unit := do
  h.validateKey key
  if let .put value := success then validateSize "cas value" "max_value_bytes" value h.maxValueBytes
  if let .valueEquals want := pred then
    validateSize "cas ValueEquals predicate" "max_value_bytes" want h.maxValueBytes

def Handle.validate (h : Handle) : Write → Except (ArachneError Addr) Unit
  | .put key value => h.validatePut key value
  | .delete key => h.validateKey key
  | .multiPut entries => h.validateMultiPut entries
  | .cas key pred success => h.validateCas key pred success

/-! ## Writing -/

/-- The session of the next write. -/
def Handle.session (h : Handle) : SessionKey := ⟨h.clientId, h.seq⟩

/-- The handle after `seq.fetch_add(1)`, which wraps. -/
def Handle.advance (h : Handle) : Handle := { h with seq := h.seq + 1 }

/-- A write of the handle: the proposal it makes, and the handle it leaves. -/
def Handle.issue (h : Handle) (op : Write) : Except (ArachneError Addr) (Proposal × Handle) := do
  h.validate op
  return ({ cmd := op.encode h.session, clientId := h.clientId, seqNo := h.seq }, h.advance)

/-! ## What a handle proposes -/

theorem le_of_validateSize {what bound : String} {bs : Bytes} {limit : Nat}
    (h : (validateSize what bound bs limit : Except (ArachneError Addr) Unit) = .ok ()) : bs.length ≤ limit := by
  rw [validateSize] at h
  split at h
  · cases h
  · omega

/-- A profile whose limits fit the length fields of a command. -/
structure Handle.Bounded (h : Handle) : Prop where
  key : h.maxKeyBytes < 2 ^ 32
  value : h.maxValueBytes < 2 ^ 32

section Bounded

variable {h : Handle} (hb : h.Bounded)
include hb

theorem Handle.Bounded.short_key {key : Bytes} (hkey : (h.validateKey key : Except (ArachneError Addr) Unit) = .ok ()) :
    Short key :=
  Nat.lt_of_le_of_lt (le_of_validateSize hkey) hb.key

theorem Handle.Bounded.short_value {what : String} {value : Bytes}
    (hvalue : (validateSize what "max_value_bytes" value h.maxValueBytes : Except (ArachneError Addr) Unit) = .ok ()) :
    Short value :=
  Nat.lt_of_le_of_lt (le_of_validateSize hvalue) hb.value

theorem Handle.Bounded.short_entries {entries : List (Bytes × Bytes)}
    (hentries : (entries.forM fun (key, value) => do
      h.validateKey key
      validateSize "multi_put value" "max_value_bytes" value h.maxValueBytes : Except (ArachneError Addr) Unit) = .ok ()) :
    ∀ entry ∈ entries, Short entry.1 ∧ Short entry.2 := by
  induction entries with
  | nil => exact fun entry hentry => (nomatch hentry)
  | cons entry entries ih =>
      obtain ⟨⟨⟩, hentry, hrest⟩ := Transition.bind_eq_ok.mp hentries
      obtain ⟨⟨⟩, hkey, hvalue⟩ := Transition.bind_eq_ok.mp hentry
      exact List.forall_mem_cons.mpr ⟨⟨hb.short_key hkey, hb.short_value hvalue⟩, ih hrest⟩

/-- What passes the checks of a handle can be encoded. -/
theorem Handle.Bounded.encodable {op : Write} (hop : (h.validate op : Except (ArachneError Addr) Unit) = .ok ()) :
    op.Encodable := by
  cases op with
  | put key value =>
      obtain ⟨⟨⟩, hkey, hvalue⟩ := Transition.bind_eq_ok.mp hop
      exact ⟨hb.short_key hkey, hb.short_value hvalue⟩
  | delete key => exact hb.short_key hop
  | multiPut entries =>
      rw [Handle.validate, Handle.validateMultiPut] at hop
      dsimp only at hop
      split at hop
      · cases hop
      · split at hop
        · cases hop
        · next hcount =>
            obtain ⟨⟨⟩, hentries, -⟩ := Transition.bind_eq_ok.mp hop
            exact ⟨Nat.le_of_not_gt hcount, hb.short_entries hentries⟩
  | cas key pred success =>
      obtain ⟨⟨⟩, hkey, hrest⟩ := Transition.bind_eq_ok.mp hop
      refine ⟨hb.short_key hkey, ?_⟩
      cases success with
      | put value =>
          obtain ⟨⟨⟩, hvalue, hrest⟩ := Transition.bind_eq_ok.mp hrest
          refine ⟨?_, hb.short_value hvalue⟩
          cases pred with
          | valueEquals want => exact hb.short_value hrest
          | _ => trivial
      | delete =>
          refine ⟨?_, trivial⟩
          cases pred with
          | valueEquals want => exact hb.short_value hrest
          | _ => trivial

/-- **A local write is well formed**: it decodes to the write that was asked for, under the session it is
registered with. -/
theorem Handle.Bounded.decode_issue {op : Write} {p : Proposal} {h' : Handle}
    (hissue : (h.issue op : Except (ArachneError Addr) (Proposal × Handle)) = .ok (p, h')) :
    StateMachine.Command.decode p.cmd = .ok (.write ⟨p.clientId, p.seqNo⟩ op) := by
  obtain ⟨⟨⟩, hvalid, hp⟩ := Transition.bind_eq_ok.mp hissue
  cases hp
  exact StateMachine.decode_encode h.session (hb.encodable hvalid)

end Bounded

end Arachne.Client
