import Arachne.StateMachine.Encode

/-! # The command format is exact, but for a put

`Parses cmd c` says that one of the four parsers accepts the bytes `cmd` as the command `c`. What an encoder
writes for a well-formed command is accepted as that command (`parses_encode`). The other way round, a reader
that accepts its input has consumed the encoding of what it returns; three of the parsers then insist on the end
of the input, and so does `parse_command` for a delete. For a put it does not, so that a put is accepted with
anything behind its value.

The readers are treated one by one with the rules of `Reader.Consumes`, in the order of the layouts. -/

namespace Arachne.StateMachine

open Codec

/-! ## Commands and their bytes -/

/-- The bytes of a command. -/
def Command.encode : Command → Bytes
  | .noop => []
  | .sessionGc sessions => encodeSessionGc sessions
  | .write session op => op.encode session

/-- A command with a layout of its own, whose counts and lengths are within their bounds. -/
def Command.WellFormed : Command → Prop
  | .noop => False
  | .sessionGc sessions => sessions.length < 2 ^ 32
  | .write _ op => op.Encodable

/-- One of the parsers accepts the bytes as the command. -/
inductive Parses (cmd : Bytes) : Command → Prop where
  | command {session : SessionKey} {op : Op} {key val : Bytes} (h : parseCommand cmd = .ok (session, op, key, val)) :
      Parses cmd (.write session (.ofOp key val op))
  | sessionGc {sessions : List SessionKey} (h : parseSessionGc cmd = .ok sessions) : Parses cmd (.sessionGc sessions)
  | multiPut {session : SessionKey} {entries : List (Bytes × Bytes)} (h : parseMultiPut cmd = .ok (session, entries)) :
      Parses cmd (.write session (.multiPut entries))
  | cas {session : SessionKey} {key : Bytes} {pred : CasPred} {success : CasOp}
      (h : parseCas cmd = .ok (session, key, pred, success)) : Parses cmd (.write session (.cas key pred success))

theorem reads_sessionGc {sessions : List SessionKey} (h : sessions.length < 2 ^ 32) :
    Reader.Reads readSessionGc (encodeSessionGc sessions) sessions := by
  rw [encodeSessionGc, List.cons_append, ← List.singleton_append]
  exact .bind (reads_expectOp opSessionGc) (.bind (.u32 h) (.many fun session _ => reads_session session))

/-- **What an encoder writes is accepted as what it was given.** -/
theorem parses_encode {c : Command} (h : c.WellFormed) : Parses c.encode c := by
  cases c with
  | noop => exact h.elim
  | sessionGc sessions => exact .sessionGc ((reads_sessionGc h).parse _)
  | write session op =>
      cases op with
      | put key val =>
          have hread := readCommand_encodePut session h.1 h.2 []
          rw [List.append_nil] at hread
          exact .command (Reader.parse_eq_ok.mpr ⟨_, hread⟩)
      | delete key => exact .command (Reader.parse_eq_ok.mpr ⟨_, readCommand_encodeDelete session h⟩)
      | multiPut entries => exact .multiPut ((reads_multiPut session h.1 h.2).parse _)
      | cas key pred success => exact .cas ((reads_cas session h.1 h.2.1 h.2.2).parse _)

/-! ## What the readers consume -/

theorem consumes_session : Reader.Consumes readSession fun session used => used = encodeSession session := by
  refine .bind .u64 ?_
  rintro clientId _ rfl
  refine .bind .u64 ?_
  rintro seqNo _ rfl
  exact .pure (by rw [List.append_nil]; rfl)

theorem consumes_expectOp (op : UInt8) : Reader.Consumes (expectOp op) fun _ used => used = [op] := by
  refine .bind .byte ?_
  rintro b _ rfl bs x rest h
  obtain ⟨used, hbs, rfl, rfl⟩ := Reader.Consumes.check (b = op) bs x rest h
  exact ⟨[], hbs, rfl⟩

theorem consumes_pair : Reader.Consumes readPair fun entry used => used = encodePair entry := by
  refine .bind .sizedBytes ?_
  rintro key _ ⟨rfl, -⟩
  refine .bind .sizedBytes ?_
  rintro val _ ⟨rfl, -⟩
  exact .pure (by rw [List.append_nil]; rfl)

theorem consumes_sessionGc : Reader.Consumes readSessionGc fun sessions used => used = encodeSessionGc sessions := by
  refine .bind (consumes_expectOp opSessionGc) ?_
  rintro - _ rfl
  refine .bind .u32 ?_
  rintro count _ ⟨rfl, -⟩ bs sessions rest h
  obtain ⟨used, hbs, rfl, rfl⟩ := Reader.Consumes.many consumes_session count bs sessions rest h
  exact ⟨_, hbs, rfl⟩

theorem consumes_multiPut :
    Reader.Consumes readMultiPut fun x used => used = encodeMultiPut x.1 x.2 := by
  refine .bind (consumes_expectOp opMultiPut) ?_
  rintro - _ rfl
  refine .bind consumes_session ?_
  rintro session _ rfl
  refine .bind .u32 ?_
  rintro count _ ⟨rfl, -⟩
  refine .bind (.check _) ?_
  rintro - _ ⟨rfl, -⟩
  refine .bind (.many consumes_pair count) ?_
  rintro entries _ ⟨rfl, rfl⟩
  exact .pure (by simp [encodeMultiPut])

theorem consumes_casPred : Reader.Consumes readCasPred fun pred used => used = encodeCasPred pred := by
  refine .bind .byte ?_
  rintro tag _ rfl
  split
  · refine .bind .u64 ?_
    rintro index _ rfl
    exact .pure (by rw [List.append_nil]; rfl)
  · refine .bind .sizedBytes ?_
    rintro value _ ⟨rfl, -⟩
    exact .pure (by rw [List.append_nil]; rfl)
  · exact .pure rfl
  · exact .reject

theorem consumes_casOp : Reader.Consumes readCasOp fun success used => used = encodeCasOp success := by
  refine .bind .byte ?_
  rintro tag _ rfl
  split
  · refine .bind .sizedBytes ?_
    rintro value _ ⟨rfl, -⟩
    exact .pure (by rw [List.append_nil]; rfl)
  · exact .pure rfl
  · exact .reject

theorem consumes_cas :
    Reader.Consumes readCas fun x used => used = encodeCas x.1 x.2.1 x.2.2.1 x.2.2.2 := by
  refine .bind (consumes_expectOp opCas) ?_
  rintro - _ rfl
  refine .bind consumes_session ?_
  rintro session _ rfl
  refine .bind .sizedBytes ?_
  rintro key _ ⟨rfl, -⟩
  refine .bind consumes_casPred ?_
  rintro pred _ rfl
  refine .bind consumes_casOp ?_
  rintro success _ rfl
  exact .pure (by simp [encodeCas])

/-- The parser of a put stops behind the value, that of a delete at the end of the input. -/
theorem readCommand_eq_some {cmd rest : Bytes} {session : SessionKey} {op : Op} {key val : Bytes}
    (h : readCommand cmd = some ((session, op, key, val), rest)) :
    match op with
    | .put => cmd = encodePut session key val ++ rest ∧ Short key ∧ Short val
    | .delete => cmd = encodeDelete session key ∧ val = [] := by
  cases cmd with
  | nil => cases h
  | cons b bs =>
      rw [readCommand, readOp_bind_cons] at h
      split_ifs at h with hput hdelete
      all_goals
        obtain ⟨⟨session', mid⟩, hsession, hkey⟩ := Option.bind_eq_some_iff.mp h
        obtain ⟨⟨key', mid'⟩, hkey, hend⟩ := Option.bind_eq_some_iff.mp hkey
        obtain ⟨_, hbs, rfl⟩ := consumes_session _ _ _ hsession
        obtain ⟨_, hmid, rfl, hshort⟩ := Reader.Consumes.sizedBytes _ _ _ hkey
      · obtain ⟨⟨val', mid''⟩, hval, hend⟩ := Option.bind_eq_some_iff.mp hend
        obtain ⟨_, hmid', rfl, hshort'⟩ := Reader.Consumes.sizedBytes _ _ _ hval
        cases hend
        refine ⟨?_, hshort, hshort'⟩
        rw [hput, hbs, hmid, hmid']
        simp [encodePut]
      · obtain ⟨hmid', hend⟩ := Reader.eof_bind_eq_some hend
        cases hend
        refine ⟨?_, rfl⟩
        rw [hdelete, hbs, hmid, hmid']
        simp [encodeDelete]

/-! ## The end of a put -/

/-- Where a put ends by its own length fields. -/
def putEnd (cmd : Bytes) : Nat :=
  let keyLen := leNat ((cmd.drop 17).take 4)
  25 + keyLen + leNat ((cmd.drop (21 + keyLen)).take 4)

/-- A command that is a put ends where its value does. -/
def EndsWithValue (cmd : Bytes) : Prop := cmd.head? = some opPut → cmd.length = putEnd cmd

theorem length_encodePut (session : SessionKey) (key val : Bytes) :
    (encodePut session key val).length = 25 + key.length + val.length := by
  simp [encodePut, encodeSession, sized, u64Bytes, u32Bytes]
  omega

theorem putEnd_encodePut (session : SessionKey) {key val : Bytes} (hkey : Short key) (hval : Short val) (rest : Bytes) :
    putEnd (encodePut session key val ++ rest) = 25 + key.length + val.length := by
  have hhead : encodePut session key val ++ rest =
      (opPut :: encodeSession session) ++ (u32Bytes key.length ++ (key ++ (u32Bytes val.length ++ (val ++ rest)))) := by
    simp [encodePut, sized]
  have hlen : (opPut :: encodeSession session).length = 17 := by simp [encodeSession, u64Bytes]
  have hfield : ∀ n, (u32Bytes n).length = 4 := fun n => length_leBytes 4 n
  have hkeyLen : leNat (((encodePut session key val ++ rest).drop 17).take 4) = key.length := by
    rw [hhead, List.drop_left' hlen, List.take_left' (hfield _), u32Bytes, leNat_leBytes (show _ < 256 ^ 4 from hkey)]
  have hbefore : encodePut session key val ++ rest =
      (opPut :: encodeSession session ++ u32Bytes key.length ++ key) ++ (u32Bytes val.length ++ (val ++ rest)) := by
    simp [encodePut, sized]
  have hlen' : (opPut :: encodeSession session ++ u32Bytes key.length ++ key).length = 21 + key.length := by
    rw [List.length_append, List.length_append, hlen, hfield]
  rw [putEnd, hkeyLen]
  show 25 + key.length + leNat (((encodePut session key val ++ rest).drop (21 + key.length)).take 4) = _
  rw [hbefore, List.drop_left' hlen', List.take_left' (hfield _), u32Bytes, leNat_leBytes (show _ < 256 ^ 4 from hval)]

/-- **The command format.** What an encoder writes is accepted as what it was given, and what a parser accepts is
what the encoder writes for the result, exactly unless it is a put with bytes behind its value. -/
theorem command_format_exact (c : Command) (cmd : Bytes) :
    (c.WellFormed → Parses c.encode c) ∧ (Parses cmd c → (c.encode = cmd ↔ EndsWithValue cmd)) := by
  refine ⟨parses_encode, ?_⟩
  -- the other layouts start with another opcode
  have hother : ∀ {op : UInt8} {rest : Bytes}, op ≠ opPut → EndsWithValue (op :: rest) := fun hop hhead =>
    absurd (Option.some.inj hhead) hop
  intro h
  cases h with
  | @command session op key val h =>
      obtain ⟨rest, hread⟩ := Reader.parse_eq_ok.mp h
      have hcmd := readCommand_eq_some hread
      cases op with
      | put =>
          obtain ⟨rfl, hkey, hval⟩ := hcmd
          show encodePut session key val = _ ↔ _
          rw [EndsWithValue, putEnd_encodePut session hkey hval rest, List.length_append, length_encodePut]
          constructor
          · intro heq hhead
            have hlen := congrArg List.length heq
            rw [List.length_append, length_encodePut] at hlen
            exact hlen.symm
          · intro hend
            have hrest : rest = [] := List.eq_nil_of_length_eq_zero (by have := hend rfl; omega)
            rw [hrest, List.append_nil]
      | delete =>
          obtain ⟨rfl, rfl⟩ := hcmd
          exact ⟨fun _ => hother (by decide), fun _ => rfl⟩
  | sessionGc h =>
      obtain rfl := consumes_sessionGc.parse_eof h
      exact ⟨fun _ => hother (by decide), fun _ => rfl⟩
  | multiPut h =>
      obtain rfl := consumes_multiPut.parse_eof h
      exact ⟨fun _ => hother (by decide), fun _ => rfl⟩
  | cas h =>
      obtain rfl := consumes_cas.parse_eof h
      exact ⟨fun _ => hother (by decide), fun _ => rfl⟩

/-- A conditional delete goes through the format and back. -/
theorem command_format_exact_cas :
    Parses (encodeCas ⟨1, 2⟩ [7] .notExists .delete) (.write ⟨1, 2⟩ (.cas [7] .notExists .delete)) ∧
      EndsWithValue (encodeCas ⟨1, 2⟩ [7] .notExists .delete) := by
  obtain ⟨haccepted, hexact⟩ := command_format_exact (.write ⟨1, 2⟩ (.cas [7] .notExists .delete))
    (encodeCas ⟨1, 2⟩ [7] .notExists .delete)
  have hparses := haccepted ⟨by decide, trivial, trivial⟩
  exact ⟨hparses, (hexact hparses).mp rfl⟩

/-- A put with one byte behind its value is accepted, as the put without it. -/
theorem put_accepts_trailing :
    Parses (encodePut ⟨1, 2⟩ [7] [8] ++ [9]) (.write ⟨1, 2⟩ (.put [7] [8])) ∧
      (Command.write ⟨1, 2⟩ (.put [7] [8])).encode ≠ encodePut ⟨1, 2⟩ [7] [8] ++ [9] := by
  have hparse : parseCommand (encodePut ⟨1, 2⟩ [7] [8] ++ [9]) = .ok (⟨1, 2⟩, .put, [7], [8]) :=
    Reader.parse_eq_ok.mpr ⟨[9], readCommand_encodePut ⟨1, 2⟩ (by decide) (by decide) [9]⟩
  exact ⟨.command hparse, by decide⟩

end Arachne.StateMachine
