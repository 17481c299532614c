import Arachne.Codec.Reader

/-! # Commands of the state machine

The bytes of a log entry's payload, as `KvStateMachine` parses them. A command is an opcode, and for
everything but a session collection the idempotency session of the client that issued it:

    put         [0][client_id][seq_no][key_len][key][val_len][val]
    delete      [1][client_id][seq_no][key_len][key]
    session gc  [2][count]([client_id][seq_no])*
    multi put   [3][client_id][seq_no][count]([key_len][key][val_len][val])*
    cas         [4][client_id][seq_no][key_len][key][predicate][success op]

Lengths and counts are `u32`, ids are `u64`, all little-endian. Every parser but the one for `put`
rejects trailing bytes. -/

namespace Arachne.StateMachine

open Codec

/-- What the state machine rejects an input with. -/
inductive KvError where
  /-- "malformed command" -/
  | malformedCommand
  /-- "malformed snapshot" -/
  | malformedSnapshot
  /-- "index ordering violation at {index}" -/
  | indexViolation (index : UInt64)
  deriving DecidableEq, Repr

def opPut : UInt8 := 0
def opDelete : UInt8 := 1
def opSessionGc : UInt8 := 2
def opMultiPut : UInt8 := 3
def opCas : UInt8 := 4

/-- The largest number of entries of a `multi_put`. -/
def maxMultiPutEntries : Nat := 4096

/-- The kind of a single-key command. -/
inductive Op where
  | put
  | delete
  deriving DecidableEq, Repr

/-- The compare predicate of a compare-and-swap. -/
inductive CasPred where
  | indexEquals (index : UInt64)
  | valueEquals (value : Bytes)
  | notExists
  deriving DecidableEq, Repr

/-- What a compare-and-swap does when its predicate matches. -/
inductive CasOp where
  | put (value : Bytes)
  | delete
  deriving DecidableEq, Repr

/-- A session key for idempotency. -/
structure SessionKey where
  clientId : UInt64
  seqNo : UInt64
  deriving DecidableEq, Repr

/-- The derived order of the source: by `client_id`, then by `seq_no`. -/
instance : Ord SessionKey :=
  ⟨compareLex (compareOn SessionKey.clientId) (compareOn SessionKey.seqNo)⟩

instance : Std.TransOrd SessionKey :=
  inferInstanceAs (Std.TransCmp (compareLex (compareOn SessionKey.clientId) (compareOn SessionKey.seqNo)))

instance : Std.LawfulEqOrd SessionKey where
  eq_of_compare {s t} h := by
    obtain ⟨hclient, hseq⟩ : compare s.clientId t.clientId = .eq ∧ compare s.seqNo t.seqNo = .eq :=
      Ordering.then_eq_eq.mp h
    cases s
    cases t
    rw [Std.compare_eq_iff_eq] at hclient hseq
    exact congrArg₂ SessionKey.mk hclient hseq

/-! ## Parsing -/

def readSession : Reader SessionKey := do
  let clientId ← .u64
  let seqNo ← .u64
  return { clientId, seqNo }

/-- The opcode a parser insists on. -/
def expectOp (op : UInt8) : Reader Unit := do
  guard ((← .byte) = op)

def readOp : Reader Op := do
  let b ← .byte
  if b = opPut then return .put
  else if b = opDelete then return .delete
  else failure

def readCommand : Reader (SessionKey × Op × Bytes × Bytes) := do
  let op ← readOp
  let session ← readSession
  let key ← .sizedBytes
  match op with
  | .put =>
    -- Bytes behind the value are not looked at.
    let val ← .sizedBytes
    return (session, op, key, val)
  | .delete =>
    .eof
    return (session, op, key, [])

/-- `parse_command`: a put or a delete. -/
def parseCommand (cmd : Bytes) : Except KvError (SessionKey × Op × Bytes × Bytes) :=
  readCommand.parse .malformedCommand cmd

def readSessionGc : Reader (List SessionKey) := do
  expectOp opSessionGc
  let count ← .u32
  .many readSession count

def parseSessionGc (cmd : Bytes) : Except KvError (List SessionKey) :=
  (do let sessions ← readSessionGc; .eof; return sessions : Reader _).parse .malformedCommand cmd

/-- A key and its value. -/
def readPair : Reader (Bytes × Bytes) := do
  let key ← .sizedBytes
  let val ← .sizedBytes
  return (key, val)

def readMultiPut : Reader (SessionKey × List (Bytes × Bytes)) := do
  expectOp opMultiPut
  let session ← readSession
  let count ← .u32
  guard (count ≤ maxMultiPutEntries)
  let entries ← .many readPair count
  return (session, entries)

def parseMultiPut (cmd : Bytes) : Except KvError (SessionKey × List (Bytes × Bytes)) :=
  (do let x ← readMultiPut; .eof; return x : Reader _).parse .malformedCommand cmd

def readCasPred : Reader CasPred := do
  match ← .byte with
  | 0 => return .indexEquals (← .u64)
  | 1 => return .valueEquals (← .sizedBytes)
  | 2 => return .notExists
  | _ => failure

def readCasOp : Reader CasOp := do
  match ← .byte with
  | 0 => return .put (← .sizedBytes)
  | 1 => return .delete
  | _ => failure

def readCas : Reader (SessionKey × Bytes × CasPred × CasOp) := do
  expectOp opCas
  let session ← readSession
  let key ← .sizedBytes
  let pred ← readCasPred
  let success ← readCasOp
  return (session, key, pred, success)

def parseCas (cmd : Bytes) : Except KvError (SessionKey × Bytes × CasPred × CasOp) :=
  (do let x ← readCas; .eof; return x : Reader _).parse .malformedCommand cmd

/-- `command_session`: the session a command belongs to. The payload is not looked at. -/
def commandSession : Bytes → Option SessionKey
  | [] => none
  | op :: rest =>
    if op = opPut ∨ op = opDelete ∨ op = opMultiPut ∨ op = opCas then (readSession rest).map Prod.fst else none

/-! ## Encoding -/

def encodeSession (session : SessionKey) : Bytes := u64Bytes session.clientId ++ u64Bytes session.seqNo

def encodePut (session : SessionKey) (key val : Bytes) : Bytes :=
  opPut :: encodeSession session ++ sized key ++ sized val

def encodeDelete (session : SessionKey) (key : Bytes) : Bytes :=
  opDelete :: encodeSession session ++ sized key

def encodePair (entry : Bytes × Bytes) : Bytes := sized entry.1 ++ sized entry.2

def encodeMultiPut (session : SessionKey) (entries : List (Bytes × Bytes)) : Bytes :=
  opMultiPut :: encodeSession session ++ u32Bytes entries.length ++ entries.flatMap encodePair

def encodeCasPred : CasPred → Bytes
  | .indexEquals index => 0 :: u64Bytes index
  | .valueEquals value => 1 :: sized value
  | .notExists => [2]

def encodeCasOp : CasOp → Bytes
  | .put value => 0 :: sized value
  | .delete => [1]

def encodeCas (session : SessionKey) (key : Bytes) (pred : CasPred) (success : CasOp) : Bytes :=
  opCas :: encodeSession session ++ sized key ++ encodeCasPred pred ++ encodeCasOp success

def encodeSessionGc (sessions : List SessionKey) : Bytes :=
  opSessionGc :: u32Bytes sessions.length ++ sessions.flatMap encodeSession

/-! ## Decoded commands

What a well-formed entry asks for, whichever parser reads it. -/

/-- A command that writes, and so belongs to a session. -/
inductive Write where
  | put (key val : Bytes)
  | delete (key : Bytes)
  | multiPut (entries : List (Bytes × Bytes))
  | cas (key : Bytes) (pred : CasPred) (success : CasOp)
  deriving DecidableEq, Repr

inductive Command where
  /-- An empty entry, by which a new leader records its term. -/
  | noop
  | sessionGc (sessions : List SessionKey)
  | write (session : SessionKey) (op : Write)
  deriving DecidableEq, Repr

def Write.ofOp (key val : Bytes) : Op → Write
  | .put => .put key val
  | .delete => .delete key

/-- The command an entry holds. The opcode picks the parser; an unknown one is left to `parse_command`
to reject. -/
def Command.decode (cmd : Bytes) : Except KvError Command :=
  match cmd with
  | [] => .ok .noop
  | op :: _ =>
    if op = opSessionGc then (parseSessionGc cmd).map .sessionGc
    else if op = opMultiPut then
      (parseMultiPut cmd).map fun (session, entries) => .write session (.multiPut entries)
    else if op = opCas then
      (parseCas cmd).map fun (session, key, pred, success) => .write session (.cas key pred success)
    else (parseCommand cmd).map fun (session, op, key, val) => .write session (.ofOp key val op)

/-- Whatever is wrong with a command, it is reported as malformed. -/
theorem Command.eq_malformed_of_decode {cmd : Bytes} {e : KvError} (h : Command.decode cmd = .error e) :
    e = .malformedCommand := by
  have hmap {α : Type} {r : Reader α} {f : α → Command} {bs : Bytes}
      (h : (r.parse KvError.malformedCommand bs).map f = .error e) : e = .malformedCommand := by
    cases hparse : r.parse KvError.malformedCommand bs with
    | error e' =>
        rw [hparse] at h
        obtain rfl := Except.error.inj h
        exact Reader.eq_of_parse_error hparse
    | ok x => rw [hparse] at h; cases h
  cases cmd with
  | nil => cases h
  | cons op rest =>
      rw [Command.decode] at h
      split_ifs at h <;> exact hmap h

end Arachne.StateMachine
