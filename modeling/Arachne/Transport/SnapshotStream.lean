import Arachne.Codec.LittleEndian
import Mathlib.Data.List.Basic

/-! # Streaming a snapshot

A follower fetches a snapshot in chunks. The serving node reads its file piece by piece, every read as short as the
system likes, and puts full chunks into a channel (`streamSnapshot`); the follower appends what arrives to a fresh file
until the stream ends (`fetchSnapshot`). The declared length is taken with the file, but the file may turn out to be
shorter or longer, and a read may fail.

What goes over the wire is a prefix of the file in pieces of at most a chunk, whatever happens. A stream that ends without
an error has carried the declared number of bytes, and one that ends with an error has not; a follower that reports
success has them in its file (`streaming_lossless`).

Pacing is left out: it delays a chunk and changes nothing else. -/

namespace Arachne.Transport

open Codec (Bytes)

/-! ## The source -/

/-- A reader over the bytes of a file. `plan` says how each call answers: it fails, or returns at most so many bytes. -/
structure Source where
  rest : Bytes
  reads : Nat := 0
  plan : Nat → Except String Nat

/-- `Read::read` into a buffer of `len` bytes. -/
def Source.read (s : Source) (len : Nat) : Except String Bytes × Source :=
  match s.plan s.reads with
  | .error e => (.error e, { s with reads := s.reads + 1 })
  | .ok most =>
    let n := min most len
    (.ok (s.rest.take n), { s with rest := s.rest.drop n, reads := s.reads + 1 })

/-- The inner loop of `stream_snapshot`: read until `want` bytes are there, the source has no more, or a read fails. -/
def fill (want : Nat) (filled : Bytes) (s : Source) : Except String Bytes × Source :=
  if filled.length < want then
    match s.read (want - filled.length) with
    | (.error e, s') => (.error e, s')
    | (.ok [], s') => (.ok filled, s')
    | (.ok (b :: bs), s') => fill want (filled ++ b :: bs) s'
  else (.ok filled, s)
termination_by want - filled.length
decreasing_by
  rw [List.length_append, List.length_cons]
  omega

/-! ## The server -/

inductive Status where
  | internal (message : String)
  /-- Raised by the connection, not by the server. -/
  | connection (message : String)
  deriving DecidableEq, Repr

/-- How many more sends the receiver takes before it is gone; `none` if it stays. -/
abbrev Room := Option Nat

/-- One send: the room that is left, or nothing if the receiver is gone. -/
def Room.send : Room → Option Room
  | none => some none
  | some 0 => none
  | some (n + 1) => some (some n)

/-- What a stream puts into its channel, and the source afterwards. -/
structure Streamed where
  items : List (Except Status Bytes)
  source : Source

/-- A last send whose outcome is ignored. -/
def Streamed.fail (room : Room) (message : String) (source : Source) : Streamed :=
  { items := if room.send.isSome then [.error (.internal message)] else [], source }

/-- The loop of `stream_snapshot`. -/
def streamLoop (chunkBytes remaining : Nat) (room : Room) (s : Source) : Streamed :=
  if 0 < remaining then
    match fill (min remaining chunkBytes) [] s with
    | (.error e, s') => .fail room ("snapshot read failed: " ++ e) s'
    | (.ok [], s') => .fail room "snapshot ended before its declared length" s'
    | (.ok (b :: bs), s') =>
      match room.send with
      | none => { items := [], source := s' }
      | some room' =>
        let tail := streamLoop chunkBytes (remaining - (b :: bs).length) room' s'
        { tail with items := .ok (b :: bs) :: tail.items }
  else { items := [], source := s }
termination_by remaining
decreasing_by
  rw [List.length_cons]
  omega

/-- `stream_snapshot`: the source as it is opened, its declared length and the size of a chunk. -/
def streamSnapshot (s : Source) (len chunkBytes : Nat) (room : Room) : Streamed := streamLoop chunkBytes len room s

/-! ## The receiver -/

inductive TransportError where
  | unknownPeer (id : String)
  | snapshotStream (detail : String)
  | send (status : Status)
  deriving DecidableEq, Repr

/-- How the destination's file system answers. A write that fails has written some of its bytes. -/
structure Disk where
  create : Except String Unit := .ok ()
  write : Nat → Except (String × Nat) Unit := fun _ => .ok ()
  sync : Except String Unit := .ok ()

/-- The receiving loop. Returns what it counted, and the file as it is then. -/
def receiveLoop (disk : Disk) (content : Bytes) (writes written : Nat) :
    List (Except Status Bytes) → Except TransportError Nat × Bytes
  | [] => (.ok written, content)
  | .ok data :: items =>
    match disk.write writes with
    | .error (e, part) => (.error (.snapshotStream e), content ++ data.take part)
    | .ok () => receiveLoop disk (content ++ data) (writes + 1) (written + data.length) items
  | .error status :: _ => (.error (.send status), content)

/-- The first half of `fetch_snapshot`: the address, the connection and the call. -/
def openStream (peer : String) (known : Bool) (connect : Except String Unit)
    (call : Except Status (List (Except Status Bytes))) : Except TransportError (List (Except Status Bytes)) :=
  if known then
    match connect with
    | .error e => .error (.snapshotStream e)
    | .ok () => call.mapError .send
  else .error (.unknownPeer peer)

/-- `fetch_snapshot` on an opened stream: the result, and the destination if it was created. -/
def fetchSnapshot (disk : Disk) (stream : Except TransportError (List (Except Status Bytes))) :
    Except TransportError (Option Nat) × Option Bytes :=
  match stream with
  | .error e => (.error e, none)
  | .ok items =>
    match disk.create with
    | .error e => (.error (.snapshotStream e), none)
    | .ok () =>
      match receiveLoop disk [] 0 0 items with
      | (.error e, content) => (.error e, some content)
      | (.ok written, content) =>
        match disk.sync with
        | .error e => (.error (.snapshotStream e), some content)
        | .ok () => (.ok (some written), some content)

/-- What arrives of a stream: all of it, or the first items and then an error of the connection. -/
def deliver (cut : Option (Nat × Status)) (items : List (Except Status Bytes)) : List (Except Status Bytes) :=
  match cut with
  | none => items
  | some (n, status) => items.take n ++ [.error status]

/-! ## Reading -/

/-- Successful reads have taken `got` from the source. -/
structure Source.Took (s s' : Source) (got : Bytes) : Prop where
  rest_eq : s.rest = got ++ s'.rest
  plan_eq : s'.plan = s.plan
  reads_le : s.reads ≤ s'.reads
  succeeded : ∀ t, s.reads ≤ t → t < s'.reads → (s.plan t).isOk = true

namespace Source.Took

variable {s s' s'' : Source} {got more : Bytes}

theorem refl (s : Source) : s.Took s [] where
  rest_eq := rfl
  plan_eq := rfl
  reads_le := Nat.le_refl _
  succeeded _ hle hlt := absurd hlt (Nat.not_lt.mpr hle)

theorem trans (h : s.Took s' got) (h' : s'.Took s'' more) : s.Took s'' (got ++ more) where
  rest_eq := by rw [h.rest_eq, h'.rest_eq, List.append_assoc]
  plan_eq := h'.plan_eq.trans h.plan_eq
  reads_le := Nat.le_trans h.reads_le h'.reads_le
  succeeded t hle hlt := by
    rcases Nat.lt_or_ge t s'.reads with hbefore | hafter
    · exact h.succeeded t hle hbefore
    · rw [← h.plan_eq]
      exact h'.succeeded t hafter hlt

end Source.Took

theorem Source.took_of_read {s s' : Source} {len : Nat} {data : Bytes} (h : s.read len = (.ok data, s')) :
    s.Took s' data ∧ data.length ≤ len := by
  rw [Source.read] at h
  split at h
  · cases h
  · next most hplan =>
      obtain ⟨hdata, rfl⟩ := Prod.mk.inj h
      obtain rfl := Except.ok.inj hdata
      refine ⟨⟨(List.take_append_drop _ _).symm, rfl, Nat.le_succ _, fun t hle hlt => ?_⟩, ?_⟩
      · obtain rfl : t = s.reads := Nat.le_antisymm (Nat.le_of_lt_succ hlt) hle
        rw [hplan]
        rfl
      · exact Nat.le_trans (List.length_take_le _ _) (Nat.min_le_right _ _)

/-- A filled chunk has the next bytes of the source, and no more than were wanted. -/
theorem took_of_fill {want : Nat} {filled data : Bytes} {s s' : Source} (hfit : filled.length ≤ want)
    (h : fill want filled s = (.ok data, s')) : ∃ got, data = filled ++ got ∧ s.Took s' got ∧ data.length ≤ want := by
  fun_induction fill want filled s with
  | case1 filled s _ e s₁ hread => cases h
  | case2 filled s _ s₁ hread =>
      obtain ⟨hdata, rfl⟩ := Prod.mk.inj h
      obtain rfl := Except.ok.inj hdata
      exact ⟨[], (List.append_nil _).symm, (Source.took_of_read hread).1, hfit⟩
  | case3 filled s hroom b bs s₁ hread ih =>
      obtain ⟨htook, hlen⟩ := Source.took_of_read hread
      obtain ⟨got, rfl, htook', hle⟩ := ih (by rw [List.length_append]; omega) h
      exact ⟨b :: bs ++ got, List.append_assoc .., htook.trans htook', hle⟩
  | case4 filled s _ =>
      obtain ⟨hdata, rfl⟩ := Prod.mk.inj h
      obtain rfl := Except.ok.inj hdata
      exact ⟨[], (List.append_nil _).symm, .refl s, hfit⟩

/-! ## The stream -/

namespace Streamed

/-- The chunks that were yielded. -/
def chunks (out : Streamed) : List Bytes := out.items.filterMap Except.toOption

def bytes (out : Streamed) : Bytes := out.chunks.flatten

def EndsInError (out : Streamed) : Prop := ∃ status, out.items.getLast? = some (.error status)

variable {out : Streamed} {data : Bytes} {room : Room} {message : String} {source : Source}

theorem chunks_cons : ({ out with items := .ok data :: out.items } : Streamed).chunks = data :: out.chunks := rfl

theorem bytes_cons : ({ out with items := .ok data :: out.items } : Streamed).bytes = data ++ out.bytes := rfl

theorem endsInError_cons :
    ({ out with items := .ok data :: out.items } : Streamed).EndsInError ↔ out.EndsInError := by
  simp only [EndsInError, List.getLast?_cons]
  cases out.items.getLast? <;> simp

theorem chunks_fail : (fail room message source).chunks = [] := by
  simp only [chunks, fail]
  split <;> rfl

theorem bytes_fail : (fail room message source).bytes = [] := by
  rw [bytes, chunks_fail, List.flatten_nil]

theorem endsInError_fail : (fail none message source).EndsInError := ⟨_, rfl⟩

/-- All of `len` bytes and no failed read, or an error and too few bytes. -/
def Ended (out : Streamed) (s : Source) (len : Nat) : Prop :=
  (¬ out.EndsInError ∧ out.bytes.length = len ∧ ∀ t, s.reads ≤ t → t < out.source.reads → (s.plan t).isOk = true) ∨
    (out.EndsInError ∧ out.bytes.length < len)

/-- A chunk in front. -/
theorem Ended.cons {s s' : Source} {len : Nat} (h : out.Ended s' (len - data.length)) (htook : s.Took s' data)
    (hle : data.length ≤ len) : Ended { out with items := .ok data :: out.items } s len := by
  rw [Ended, endsInError_cons, bytes_cons, List.length_append]
  refine Or.imp ?_ ?_ h
  · rintro ⟨hend, hlen, hok⟩
    refine ⟨hend, by omega, fun t hfrom hlt => ?_⟩
    rcases Nat.lt_or_ge t s'.reads with hbefore | hafter
    · exact htook.succeeded t hfrom hbefore
    · rw [← htook.plan_eq]
      exact hok t hafter hlt
  · rintro ⟨hend, hlen⟩
    exact ⟨hend, by omega⟩

theorem ended_fail {s : Source} {len : Nat} (hpos : 0 < len) : (fail none message source).Ended s len := by
  refine .inr ⟨endsInError_fail, ?_⟩
  rw [bytes_fail]
  exact hpos

end Streamed

section

variable {chunkBytes remaining : Nat} {room : Room} {s : Source}

/-- The next chunk, from the reads that filled it. -/
theorem took_of_chunk {b : UInt8} {bs : Bytes} {s' : Source}
    (h : fill (min remaining chunkBytes) [] s = (.ok (b :: bs), s')) :
    s.Took s' (b :: bs) ∧ (b :: bs).length ≤ remaining ∧ (b :: bs).length ≤ chunkBytes := by
  obtain ⟨got, hdata, htook, hle⟩ := took_of_fill (Nat.zero_le _) h
  rw [List.nil_append] at hdata
  exact ⟨hdata ▸ htook, Nat.le_trans hle (Nat.min_le_left _ _), Nat.le_trans hle (Nat.min_le_right _ _)⟩

theorem bytes_streamLoop_isPrefix : (streamLoop chunkBytes remaining room s).bytes <+: s.rest := by
  fun_induction streamLoop chunkBytes remaining room s with
  | case1 => rw [Streamed.bytes_fail]; exact List.nil_prefix
  | case2 => rw [Streamed.bytes_fail]; exact List.nil_prefix
  | case3 => exact List.nil_prefix
  | case4 remaining room s _ b bs s' hfill room' _ tail ih =>
      rw [Streamed.bytes_cons, (took_of_chunk hfill).1.rest_eq]
      exact (List.prefix_append_right_inj _).mpr ih
  | case5 => exact List.nil_prefix

theorem length_le_of_mem_chunks {chunk : Bytes} (h : chunk ∈ (streamLoop chunkBytes remaining room s).chunks) :
    chunk.length ≤ chunkBytes := by
  fun_induction streamLoop chunkBytes remaining room s with
  | case1 => rw [Streamed.chunks_fail] at h; cases h
  | case2 => rw [Streamed.chunks_fail] at h; cases h
  | case3 => cases h
  | case4 remaining room s _ b bs s' hfill room' _ tail ih =>
      rw [Streamed.chunks_cons] at h
      rcases List.mem_cons.mp h with rfl | h
      · exact (took_of_chunk hfill).2.2
      · exact ih h
  | case5 => cases h

/-- **How a stream ends** while the receiver stays. -/
theorem streamLoop_ended (hroom : room = none) : (streamLoop chunkBytes remaining room s).Ended s remaining := by
  fun_induction streamLoop chunkBytes remaining room s with
  | case1 remaining room s hpos e s' hfill =>
      subst hroom
      exact Streamed.ended_fail hpos
  | case2 remaining room s hpos s' hfill =>
      subst hroom
      exact Streamed.ended_fail hpos
  | case3 remaining room s hpos b bs s' hfill hsend =>
      subst hroom
      cases hsend
  | case4 remaining room s hpos b bs s' hfill room' hsend tail ih =>
      subst hroom
      obtain ⟨htook, hle, -⟩ := took_of_chunk hfill
      exact Streamed.Ended.cons (ih (Option.some.inj hsend).symm) htook hle
  | case5 remaining room s hdone =>
      refine .inl ⟨?_, ?_, fun t hle hlt => absurd hlt (Nat.not_lt.mpr hle)⟩
      · rintro ⟨status, hlast⟩
        cases hlast
      · exact (Nat.eq_zero_of_not_pos hdone).symm

end

/-! ## The receiver's file -/

theorem receiveLoop_eq_ok {disk : Disk} {content content' : Bytes} {writes written n : Nat}
    {items : List (Except Status Bytes)} (h : receiveLoop disk content writes written items = (.ok n, content')) :
    ∃ chunks : List Bytes, items = chunks.map .ok ∧ content' = content ++ chunks.flatten ∧
      n = written + chunks.flatten.length := by
  induction items generalizing content writes written with
  | nil =>
      obtain ⟨hn, rfl⟩ := Prod.mk.inj h
      obtain rfl := Except.ok.inj hn
      exact ⟨[], rfl, (List.append_nil _).symm, rfl⟩
  | cons item items ih =>
      cases item with
      | error status => cases h
      | ok data =>
          rw [receiveLoop] at h
          split at h
          · cases h
          · obtain ⟨chunks, rfl, rfl, rfl⟩ := ih h
            refine ⟨data :: chunks, rfl, ?_, ?_⟩
            · rw [List.flatten_cons, List.append_assoc]
            · rw [List.flatten_cons, List.length_append, Nat.add_assoc]

/-- A fetch that succeeds has seen nothing but chunks, and has them all in its file. -/
theorem fetchSnapshot_eq_ok {disk : Disk} {stream : Except TransportError (List (Except Status Bytes))} {written : Option Nat}
    {dest : Option Bytes} (h : fetchSnapshot disk stream = (.ok written, dest)) :
    ∃ chunks : List Bytes, stream = .ok (chunks.map .ok) ∧ dest = some chunks.flatten ∧
      written = some chunks.flatten.length := by
  unfold fetchSnapshot at h
  split at h
  · cases h
  split at h
  · cases h
  split at h
  · cases h
  next content hloop =>
  split at h
  · cases h
  obtain ⟨chunks, rfl, rfl, rfl⟩ := receiveLoop_eq_ok hloop
  obtain ⟨hwritten, rfl⟩ := Prod.mk.inj h
  obtain rfl := Except.ok.inj hwritten
  exact ⟨chunks, rfl, rfl, by rw [Nat.zero_add]⟩

/-- A stream that arrives without an error arrived whole. -/
theorem deliver_eq_chunks {cut : Option (Nat × Status)} {out : Streamed} {chunks : List Bytes}
    (h : deliver cut out.items = chunks.map .ok) : out.bytes = chunks.flatten := by
  cases cut with
  | none =>
      have hchunks : out.chunks = chunks := by
        rw [Streamed.chunks, show out.items = chunks.map .ok from h, List.filterMap_map]
        exact List.filterMap_some
      rw [Streamed.bytes, hchunks]
  | some cut =>
      have hlast : Except.error cut.2 ∈ (chunks.map .ok : List (Except Status Bytes)) :=
        h ▸ List.mem_append_right _ (List.mem_singleton_self _)
      obtain ⟨_, -, heq⟩ := List.mem_map.mp hlast
      cases heq

theorem openStream_eq_ok {peer : String} {known : Bool} {connect : Except String Unit}
    {call : Except Status (List (Except Status Bytes))} {items : List (Except Status Bytes)}
    (h : openStream peer known connect call = .ok items) : call = .ok items := by
  unfold openStream at h
  split at h
  · split at h
    · cases h
    · cases call with
      | error status => cases h
      | ok items' => exact congrArg _ (Except.ok.inj h)
  · cases h

/-! ## A fetch that fails -/

/-- Whatever becomes of it, the receiving loop has appended the beginning of what was sent. -/
theorem receiveLoop_isPrefix (disk : Disk) (content : Bytes) (writes written : Nat) (items : List (Except Status Bytes)) :
    ∃ got, (receiveLoop disk content writes written items).2 = content ++ got ∧
      got <+: (items.filterMap Except.toOption).flatten := by
  induction items generalizing content writes written with
  | nil => exact ⟨[], (List.append_nil _).symm, List.nil_prefix⟩
  | cons item items ih =>
      cases item with
      | error status => exact ⟨[], (List.append_nil _).symm, List.nil_prefix⟩
      | ok data =>
          rw [receiveLoop]
          split
          · next e part _ => exact ⟨data.take part, rfl, (List.take_prefix _ _).trans (List.prefix_append _ _)⟩
          · obtain ⟨got, heq, hprefix⟩ := ih (content ++ data) (writes + 1) (written + data.length)
            exact ⟨data ++ got, by rw [heq, List.append_assoc], (List.prefix_append_right_inj _).mpr hprefix⟩

theorem deliver_isPrefix (cut : Option (Nat × Status)) (out : Streamed) :
    ((deliver cut out.items).filterMap Except.toOption).flatten <+: out.bytes := by
  cases cut with
  | none => exact List.prefix_refl _
  | some cut =>
      have hsplit : out.bytes = ((out.items.take cut.1).filterMap Except.toOption).flatten ++
          ((out.items.drop cut.1).filterMap Except.toOption).flatten := by
        rw [← List.flatten_append, ← List.filterMap_append, List.take_append_drop]
        rfl
      have herror : ([.error cut.2] : List (Except Status Bytes)).filterMap Except.toOption = [] := rfl
      rw [hsplit, deliver, List.filterMap_append, herror, List.append_nil]
      exact List.prefix_append _ _

/-- **What a fetch leaves behind is the beginning of the source**, also when it fails. -/
theorem dest_isPrefix {s : Source} {len chunkBytes : Nat} {room : Room} {disk : Disk} {peer : String} {known : Bool}
    {connect : Except String Unit} {cut : Option (Nat × Status)} {content : Bytes}
    (h : (fetchSnapshot disk (openStream peer known connect
      (.ok (deliver cut (streamSnapshot s len chunkBytes room).items)))).2 = some content) : content <+: s.rest := by
  have hloop : ∀ items, (openStream peer known connect
      (.ok (deliver cut (streamSnapshot s len chunkBytes room).items))) = .ok items →
      (receiveLoop disk [] 0 0 items).2 <+: s.rest := by
    intro items hitems
    obtain rfl := Except.ok.inj (openStream_eq_ok hitems)
    obtain ⟨got, heq, hgot⟩ := receiveLoop_isPrefix disk [] 0 0 (deliver cut (streamSnapshot s len chunkBytes room).items)
    rw [heq, List.nil_append]
    exact hgot.trans ((deliver_isPrefix cut _).trans bytes_streamLoop_isPrefix)
  unfold fetchSnapshot at h
  split at h
  · cases h
  next items hitems =>
  have hloop := hloop items hitems
  split at h
  · cases h
  split at h
  · next heq =>
      rw [heq] at hloop
      exact Option.some.inj h ▸ hloop
  · next heq =>
      rw [heq] at hloop
      split at h
      · exact Option.some.inj h ▸ hloop
      · exact Option.some.inj h ▸ hloop

/-! ## The two together -/

/-- **Streaming is lossless.** -/
theorem streaming_lossless (s : Source) (len chunkBytes : Nat) (room : Room) :
    (streamSnapshot s len chunkBytes room).bytes <+: s.rest ∧
    (∀ chunk ∈ (streamSnapshot s len chunkBytes room).chunks, chunk.length ≤ chunkBytes) ∧
    (room = none →
      (¬ (streamSnapshot s len chunkBytes room).EndsInError ↔
        (streamSnapshot s len chunkBytes room).bytes.length = len) ∧
      (s.rest.length < len → (streamSnapshot s len chunkBytes room).EndsInError) ∧
      ∀ t e, s.reads ≤ t → t < (streamSnapshot s len chunkBytes room).source.reads → s.plan t = .error e →
        (streamSnapshot s len chunkBytes room).EndsInError) ∧
    ∀ disk peer known connect cut written dest,
      fetchSnapshot disk (openStream peer known connect (.ok (deliver cut (streamSnapshot s len chunkBytes room).items))) =
        (.ok written, dest) →
      dest = some (streamSnapshot s len chunkBytes room).bytes ∧
        written = some (streamSnapshot s len chunkBytes room).bytes.length := by
  refine ⟨bytes_streamLoop_isPrefix, fun chunk => length_le_of_mem_chunks, fun hroom => ?_, ?_⟩
  · have hended : (streamSnapshot s len chunkBytes room).Ended s len := streamLoop_ended hroom
    have hprefix : (streamSnapshot s len chunkBytes room).bytes <+: s.rest := bytes_streamLoop_isPrefix
    rcases hended with ⟨hend, hlen, hok⟩ | ⟨hend, hlen⟩
    · refine ⟨iff_of_true hend hlen, fun hshort => ?_, fun t e hle hlt hplan => ?_⟩
      · exact absurd (hlen ▸ hprefix.length_le) (Nat.not_le.mpr hshort)
      · have hok := hok t hle hlt
        rw [hplan] at hok
        cases hok
    · exact ⟨iff_of_false (not_not_intro hend) (Nat.ne_of_lt hlen), fun _ => hend, fun _ _ _ _ _ => hend⟩
  · intro disk peer known connect cut written dest h
    obtain ⟨chunks, hstream, rfl, rfl⟩ := fetchSnapshot_eq_ok h
    rw [deliver_eq_chunks (Except.ok.inj (openStream_eq_ok hstream))]
    exact ⟨rfl, rfl⟩

/-- Five bytes, whose first read returns a single one. -/
def hesitantSource : Source := { rest := [1, 2, 3, 4, 5], plan := fun t => .ok (if t = 0 then 1 else 2) }

/-- Its five bytes in chunks of two, and the error that ends it when six were declared. -/
theorem streaming_lossless_hesitant :
    (streamSnapshot hesitantSource 5 2 none).chunks = [[1, 2], [3, 4], [5]] ∧
    ¬ (streamSnapshot hesitantSource 5 2 none).EndsInError ∧ (streamSnapshot hesitantSource 6 2 none).EndsInError ∧
    ∃ written dest, fetchSnapshot {} (openStream "n1" true (.ok ()) (.ok (deliver none
      (streamSnapshot hesitantSource 5 2 none).items))) = (.ok written, dest) ∧ dest = some [1, 2, 3, 4, 5] := by
  have hchunks : (streamSnapshot hesitantSource 5 2 none).chunks = [[1, 2], [3, 4], [5]] := by decide +kernel
  have hlen : (streamSnapshot hesitantSource 5 2 none).bytes.length = 5 := by
    rw [Streamed.bytes, hchunks]
    rfl
  obtain ⟨-, -, hends, hfetched⟩ := streaming_lossless hesitantSource 5 2 none
  obtain ⟨-, -, hshort, -⟩ := streaming_lossless hesitantSource 6 2 none
  have hfetch : fetchSnapshot {} (openStream "n1" true (.ok ()) (.ok (deliver none
      (streamSnapshot hesitantSource 5 2 none).items))) = (.ok (some 5), some [1, 2, 3, 4, 5]) := by
    decide +kernel
  refine ⟨hchunks, (hends rfl).1.mpr hlen, (hshort rfl).2.1 (by decide), _, _, hfetch, ?_⟩
  rw [(hfetched _ _ _ _ _ _ _ hfetch).1, Streamed.bytes, hchunks]

end Arachne.Transport
