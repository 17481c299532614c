import Arachne.StateMachine.Snapshot

/-! # Commands and their sessions

Two facts about the bytes of a command that the runtime relies on. What a client encodes is decoded to the
same write of the same session, as long as its lengths fit their fields (`decode_encode`). And the session
the runtime attributes an entry by, read from its first bytes only, is the one the parsers find
(`commandSession_of_decode`). -/

namespace Arachne.StateMachine

open Codec

/-! ## Round trips -/

/-- The bytes a client sends for a write. -/
def Write.encode (session : SessionKey) : Write → Bytes
  | .put key val => encodePut session key val
  | .delete key => encodeDelete session key
  | .multiPut entries => encodeMultiPut session entries
  | .cas key pred success => encodeCas session key pred success

def CasPred.Fits : CasPred → Prop
  | .valueEquals value => Short value
  | _ => True

/-- Every length and count of the write fits its field, and the parser's bound on a batch. -/
def Write.Encodable : Write → Prop
  | .put key val => Short key ∧ Short val
  | .delete key => Short key
  | .multiPut entries => entries.length ≤ maxMultiPutEntries ∧ ∀ entry ∈ entries, Short entry.1 ∧ Short entry.2
  | .cas key pred success => Short key ∧ pred.Fits ∧ success.Fits

theorem reads_expectOp (op : UInt8) : Reader.Reads (expectOp op) [op] () := by
  intro rest
  rw [expectOp, Reader.Reads.run_bind (.byte op), show (guard (op = op) : Reader Unit) = pure () from if_pos rfl]
  rfl

theorem reads_casPred {pred : CasPred} (h : pred.Fits) : Reader.Reads readCasPred (encodeCasPred pred) pred := by
  cases pred with
  | indexEquals index => exact .bind_byte (.bind_pure (.u64 index) _)
  | valueEquals value => exact .bind_byte (.bind_pure (.sizedBytes h) _)
  | notExists => exact .bind_byte (.pure _)

theorem reads_casOp {success : CasOp} (h : success.Fits) : Reader.Reads readCasOp (encodeCasOp success) success := by
  cases success with
  | put value => exact .bind_byte (.bind_pure (.sizedBytes h) _)
  | delete => exact .bind_byte (.pure _)

theorem reads_pair {entry : Bytes × Bytes} (h : Short entry.1 ∧ Short entry.2) :
    Reader.Reads readPair (encodePair entry) entry :=
  .bind (.sizedBytes h.1) (.bind_pure (.sizedBytes h.2) _)

theorem reads_multiPut (session : SessionKey) {entries : List (Bytes × Bytes)} (hlen : entries.length ≤ maxMultiPutEntries)
    (h : ∀ entry ∈ entries, Short entry.1 ∧ Short entry.2) :
    Reader.Reads readMultiPut (encodeMultiPut session entries) (session, entries) := by
  have hcount : entries.length < 2 ^ 32 := Nat.lt_of_le_of_lt hlen (by decide)
  rw [encodeMultiPut, List.cons_append, List.cons_append, List.append_assoc, ← List.singleton_append]
  exact .bind (reads_expectOp opMultiPut) (.bind (reads_session session) (.bind (.u32 hcount)
    (.check hlen (.bind_pure (.many fun entry hentry => reads_pair (h entry hentry)) _))))

theorem reads_cas (session : SessionKey) {key : Bytes} {pred : CasPred} {success : CasOp} (hkey : Short key)
    (hpred : pred.Fits) (hsuccess : success.Fits) :
    Reader.Reads readCas (encodeCas session key pred success) (session, key, pred, success) := by
  rw [encodeCas, List.cons_append, List.cons_append, List.cons_append, List.append_assoc, List.append_assoc,
    ← List.singleton_append]
  exact .bind (reads_expectOp opCas) (.bind (reads_session session) (.bind (.sizedBytes hkey)
    (.bind (reads_casPred hpred) (.bind_pure (reads_casOp hsuccess) _))))

theorem reads_opPut : Reader.Reads readOp [opPut] .put := fun _ => rfl

theorem reads_opDelete : Reader.Reads readOp [opDelete] .delete := fun _ => rfl

theorem readCommand_encodePut (session : SessionKey) {key val : Bytes} (hkey : Short key) (hval : Short val) (rest : Bytes) :
    readCommand (encodePut session key val ++ rest) = some ((session, .put, key, val), rest) := by
  rw [encodePut, List.cons_append, List.cons_append, List.cons_append, List.append_assoc, List.append_assoc,
    ← List.singleton_append, readCommand, reads_opPut.run_bind, (reads_session session).run_bind,
    Reader.Reads.run_bind (.sizedBytes hkey)]
  exact Reader.Reads.run_bind (.sizedBytes hval) _ rest

/-- The parser of a delete looks for the end of the input itself. -/
theorem readCommand_encodeDelete (session : SessionKey) {key : Bytes} (hkey : Short key) :
    readCommand (encodeDelete session key) = some ((session, .delete, key, []), []) := by
  rw [encodeDelete, List.cons_append, ← List.singleton_append, ← List.append_nil (sized key), readCommand,
    reads_opDelete.run_bind, (reads_session session).run_bind, Reader.Reads.run_bind (.sizedBytes hkey)]
  rfl

/-- The operation in front of a command selects its parser. -/
theorem decode_of_opMultiPut (cmd : Bytes) {rest : Bytes} (h : cmd = opMultiPut :: rest) :
    Command.decode cmd =
      (parseMultiPut cmd).map fun (session, entries) => .write session (.multiPut entries) := by
  subst h
  rw [Command.decode, if_neg (by decide), if_pos rfl]

theorem decode_of_opCas (cmd : Bytes) {rest : Bytes} (h : cmd = opCas :: rest) :
    Command.decode cmd =
      (parseCas cmd).map fun (session, key, pred, success) => .write session (.cas key pred success) := by
  subst h
  rw [Command.decode, if_neg (by decide), if_neg (by decide), if_pos rfl]

theorem decode_of_op (cmd : Bytes) {rest : Bytes} {op : UInt8} (hop : op = opPut ∨ op = opDelete) (h : cmd = op :: rest) :
    Command.decode cmd = (parseCommand cmd).map fun (session, op, key, val) => .write session (.ofOp key val op) := by
  subst h
  have hne : op ≠ opSessionGc ∧ op ≠ opMultiPut ∧ op ≠ opCas := by
    rcases hop with rfl | rfl <;> decide
  rw [Command.decode, if_neg hne.1, if_neg hne.2.1, if_neg hne.2.2]

/-- **What a client encodes is what is applied.** -/
theorem decode_encode (session : SessionKey) {op : Write} (h : op.Encodable) :
    Command.decode (op.encode session) = .ok (.write session op) := by
  cases op with
  | put key val =>
      have hread := readCommand_encodePut session h.1 h.2 []
      rw [List.append_nil] at hread
      rw [Write.encode, decode_of_op (encodePut session key val) (.inl rfl) rfl, parseCommand,
        Reader.parse_eq_ok.mpr ⟨_, hread⟩]
      rfl
  | delete key =>
      rw [Write.encode, decode_of_op (encodeDelete session key) (.inr rfl) rfl, parseCommand,
        Reader.parse_eq_ok.mpr ⟨_, readCommand_encodeDelete session h⟩]
      rfl
  | multiPut entries =>
      rw [Write.encode, decode_of_opMultiPut (encodeMultiPut session entries) rfl, parseMultiPut,
        (reads_multiPut session h.1 h.2).parse]
      rfl
  | cas key pred success =>
      rw [Write.encode, decode_of_opCas (encodeCas session key pred success) rfl, parseCas,
        (reads_cas session h.1 h.2.1 h.2.2).parse]
      rfl

/-! ## Sessions -/

theorem map_readSession_of_bind {α : Type} {f : SessionKey → Reader α} {session : α → SessionKey}
    (hf : ∀ s, Reader.Yields (f s) fun x => session x = s) {bs rest : Bytes} {x : α}
    (h : (readSession >>= f) bs = some (x, rest)) : (readSession bs).map Prod.fst = some (session x) := by
  obtain ⟨⟨s, mid⟩, hs, hx⟩ := Option.bind_eq_some_iff.mp h
  rw [hs, hf s mid x rest hx]
  rfl

theorem expectOp_bind_cons {α : Type} (op' op : UInt8) (k : Unit → Reader α) (bs : Bytes) :
    (expectOp op' >>= k) (op :: bs) = if op = op' then k () bs else none := by
  split_ifs with h
  · subst h
    exact (reads_expectOp op).run_bind k bs
  · rw [Reader.bind_apply]
    show ((guard (op = op') : Reader Unit) bs).bind _ = none
    rw [show (guard (op = op') : Reader Unit) = failure from if_neg h]
    rfl

theorem readOp_bind_cons {α : Type} (op : UInt8) (k : Op → Reader α) (bs : Bytes) :
    (readOp >>= k) (op :: bs) =
      if op = opPut then k .put bs else if op = opDelete then k .delete bs else none := by
  split_ifs with hput hdelete
  · subst hput
    exact reads_opPut.run_bind k bs
  · subst hdelete
    exact reads_opDelete.run_bind k bs
  · rw [Reader.bind_apply, readOp, Reader.bind_apply]
    show ((ite _ _ _ : Reader Op) bs).bind _ = none
    rw [if_neg hput, if_neg hdelete]
    rfl

/-- The session of a put or delete is in front of its payload, and so for the other two writes. -/
theorem readCommand_session {op : UInt8} {bs rest : Bytes} {x : SessionKey × Op × Bytes × Bytes}
    (h : readCommand (op :: bs) = some (x, rest)) :
    (op = opPut ∨ op = opDelete) ∧ (readSession bs).map Prod.fst = some x.1 := by
  rw [readCommand, readOp_bind_cons] at h
  have hput : ∀ s : SessionKey, Reader.Yields (do
      let key ← .sizedBytes
      let val ← .sizedBytes
      return (s, Op.put, key, val) : Reader (SessionKey × Op × Bytes × Bytes)) fun x => x.1 = s := fun s =>
    .bind (.any _) fun key _ => .bind (.any _) fun val _ => .pure rfl
  have hdelete : ∀ s : SessionKey, Reader.Yields (do
      let key ← .sizedBytes
      .eof
      return (s, Op.delete, key, []) : Reader (SessionKey × Op × Bytes × Bytes)) fun x => x.1 = s := fun s =>
    .bind (.any _) fun key _ => .bind (.any _) fun _ _ => .pure rfl
  split_ifs at h with hop hop
  · exact ⟨.inl hop, map_readSession_of_bind hput h⟩
  · exact ⟨.inr hop, map_readSession_of_bind hdelete h⟩

theorem readMultiPut_session {op : UInt8} {bs rest : Bytes} {x : SessionKey × List (Bytes × Bytes)}
    (h : readMultiPut (op :: bs) = some (x, rest)) : (readSession bs).map Prod.fst = some x.1 := by
  rw [readMultiPut, expectOp_bind_cons, Option.ite_none_right_eq_some] at h
  exact map_readSession_of_bind (fun s => .bind (.any _) fun count _ => .bind (.any _) fun _ _ =>
    .bind (.any _) fun entries _ => .pure rfl) h.2

theorem readCas_session {op : UInt8} {bs rest : Bytes} {x : SessionKey × Bytes × CasPred × CasOp}
    (h : readCas (op :: bs) = some (x, rest)) : (readSession bs).map Prod.fst = some x.1 := by
  rw [readCas, expectOp_bind_cons, Option.ite_none_right_eq_some] at h
  exact map_readSession_of_bind (fun s => .bind (.any _) fun key _ => .bind (.any _) fun pred _ =>
    .bind (.any _) fun success _ => .pure rfl) h.2

/-- **The session of an entry**, as the runtime finds it, is the one the entry is applied under. -/
theorem commandSession_of_decode {cmd : Bytes} {session : SessionKey} {op : Write}
    (h : Command.decode cmd = .ok (.write session op)) : commandSession cmd = some session := by
  cases cmd with
  | nil => cases h
  | cons b bs =>
      rw [Command.decode] at h
      rw [commandSession]
      split_ifs at h with hgc hmulti hcas
      · obtain ⟨sessions, -, hx⟩ := Transition.map_eq_ok.mp h
        cases hx
      · obtain ⟨x, hparse, hx⟩ := Transition.map_eq_ok.mp h
        cases hx
        obtain ⟨rest, hread⟩ := Reader.eq_some_of_parse_eof hparse
        rw [if_pos (.inr (.inr (.inl hmulti))), readMultiPut_session hread]
      · obtain ⟨x, hparse, hx⟩ := Transition.map_eq_ok.mp h
        cases hx
        obtain ⟨rest, hread⟩ := Reader.eq_some_of_parse_eof hparse
        rw [if_pos (.inr (.inr (.inr hcas))), readCas_session hread]
      · obtain ⟨x, hparse, hx⟩ := Transition.map_eq_ok.mp h
        cases hx
        obtain ⟨rest, hread⟩ := Reader.parse_eq_ok.mp hparse
        obtain ⟨hop, hsession⟩ := readCommand_session hread
        rw [if_pos (hop.imp_right .inl), hsession]

theorem commandSession_of_decode_noop {cmd : Bytes} (h : Command.decode cmd = .ok .noop) : commandSession cmd = none := by
  cases cmd with
  | nil => rfl
  | cons b bs =>
      rw [Command.decode] at h
      split_ifs at h <;> (obtain ⟨x, -, hx⟩ := Transition.map_eq_ok.mp h; cases hx)

theorem commandSession_of_decode_sessionGc {cmd : Bytes} {sessions : List SessionKey}
    (h : Command.decode cmd = .ok (.sessionGc sessions)) : commandSession cmd = none := by
  cases cmd with
  | nil => cases h
  | cons b bs =>
      rw [Command.decode] at h
      split_ifs at h with hgc hmulti hcas
      · rw [hgc, commandSession, if_neg (by decide)]
      all_goals
        obtain ⟨x, -, hx⟩ := Transition.map_eq_ok.mp h
        cases hx

/-- What a client encodes has its session in front, whatever its lengths. -/
theorem commandSession_encode (session : SessionKey) (op : Write) : commandSession (op.encode session) = some session := by
  have hread : ∀ rest, (readSession (encodeSession session ++ rest)).map Prod.fst = some session := by
    intro rest
    rw [reads_session session rest]
    rfl
  cases op with
  | put key val =>
      rw [Write.encode, encodePut, List.cons_append, List.cons_append, List.append_assoc, commandSession, if_pos (by decide)]
      exact hread _
  | delete key =>
      rw [Write.encode, encodeDelete, List.cons_append, commandSession, if_pos (by decide)]
      exact hread _
  | multiPut entries =>
      rw [Write.encode, encodeMultiPut, List.cons_append, List.cons_append, List.append_assoc, commandSession,
        if_pos (by decide)]
      exact hread _
  | cas key pred success =>
      rw [Write.encode, encodeCas, List.cons_append, List.cons_append, List.cons_append, List.append_assoc, List.append_assoc,
        commandSession, if_pos (by decide)]
      exact hread _

theorem decode_ne_sessionGc {cmd : Bytes} {session : SessionKey} (h : commandSession cmd = some session)
    (sessions : List SessionKey) : Command.decode cmd ≠ .ok (.sessionGc sessions) := by
  intro hdecode
  cases cmd with
  | nil => cases h
  | cons op bs =>
      rw [commandSession, Option.ite_none_right_eq_some] at h
      rw [Command.decode] at hdecode
      split_ifs at hdecode with hgc hmulti hcas
      · subst hgc
        exact absurd h.1 (by decide)
      all_goals
        obtain ⟨x, -, hx⟩ := Transition.map_eq_ok.mp hdecode
        cases hx

/-- An entry with a session that can be applied is a write of that session. -/
theorem eq_write_of_commandSession {cmd : Bytes} {session : SessionKey} {c : Command}
    (h : commandSession cmd = some session) (hdecode : Command.decode cmd = .ok c) : ∃ op, c = .write session op := by
  cases c with
  | noop =>
      cases cmd with
      | nil => cases h
      | cons op bs =>
          rw [Command.decode] at hdecode
          split_ifs at hdecode
          all_goals
            obtain ⟨x, -, hx⟩ := Transition.map_eq_ok.mp hdecode
            cases hx
  | sessionGc sessions => exact absurd hdecode (decode_ne_sessionGc h sessions)
  | write session' op =>
      obtain rfl := Option.some.inj ((commandSession_of_decode hdecode).symm.trans h)
      exact ⟨op, rfl⟩

end Arachne.StateMachine
