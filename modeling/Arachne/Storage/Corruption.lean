import Arachne.Storage.Tear

/-! # One damaged byte

What `open` makes of a directory in which one byte of one segment was changed. A byte of a record's
checksum or body never goes unnoticed: a single changed byte always changes the CRC32C
(`decodeRecord_set_ne`), and a record that does not decode stops the open.

A byte of the *length* field is different. If the new length runs past the end of the last segment, the record
looks like a torn tail, and so does everything behind it. Whether it is cut off is decided by the commit replay has
seen *before* it (`BeyondWindow`), and the HardState record that commits the entries cut off may well stand
behind them. `committed_entries_survive_iff` says exactly when a committed entry is lost. -/

namespace Arachne.Storage

open Codec (Bytes leNat leNat_lt leNat_leBytes leNat_set_ne length_leBytes framesWithin framesFrom)
open WalStorage

/-! ## The checksum catches a changed byte -/

/-- What decodes has a matching checksum. -/
theorem crc_of_decodeRecord {buf : Bytes} {x : RecordType × Bytes} (h : decodeRecord buf = .ok x) :
    crc32c (buf.drop 8) = BitVec.ofNat 32 (leNat ((buf.drop 4).take 4)) := by
  rw [decodeRecord] at h
  split at h
  · cases h
  · dsimp only at h
    split at h
    · cases h
    · split at h
      · cases h
      · split at h
        · cases h
        · split at h
          · cases h
          · next hcrc => exact not_not.mp hcrc

/-- A record with one byte of its checksum or body changed does not decode. -/
theorem decodeRecord_set_ne {r : Record} (h : r.Fits) {q : Nat} {b : UInt8} (h4 : 4 ≤ q)
    (hq : q < r.encode.length) (hb : r.encode[q]? ≠ some b) (x : RecordType × Bytes) :
    decodeRecord (r.encode.set q b) ≠ .ok x := by
  intro hok
  have hcrc := crc_of_decodeRecord hok
  obtain ⟨recordType, payload, -, henc, -⟩ := encode_eq h
  rw [henc, length_encodeRecord] at hq
  rw [henc, encodeRecord, List.append_assoc] at hb hcrc
  obtain ⟨body, hbody⟩ : ∃ body, body = recordType.toByte :: payload := ⟨_, rfl⟩
  rw [← hbody] at hb hcrc
  have hlen : body.length = 1 + payload.length := by rw [hbody, List.length_cons, Nat.add_comm]
  rw [List.set_append_right _ _ (by simpa using h4), length_leBytes] at hcrc
  rw [List.getElem?_append_right (by simpa using h4), length_leBytes] at hb
  rw [show (8 : Nat) = 4 + 4 by rfl, ← List.drop_drop, List.drop_left' (length_leBytes 4 _)] at hcrc
  by_cases h8 : q < 8
  · -- the checksum field
    rw [List.set_append_left _ _ (by rw [length_leBytes]; omega), List.drop_left' (by simp),
      List.take_left' (by simp)] at hcrc
    rw [List.getElem?_append_left (by rw [length_leBytes]; omega)] at hb
    have hlt := leNat_lt ((Codec.leBytes 4 (crc32c body).toNat).set (q - 4) b)
    rw [List.length_set, length_leBytes] at hlt
    have hsame := congrArg BitVec.toNat hcrc
    rw [BitVec.toNat_ofNat, Nat.mod_eq_of_lt (show _ < 2 ^ 32 from hlt)] at hsame
    refine leNat_set_ne hb (by rw [length_leBytes]; omega) ?_
    rw [leNat_leBytes (BitVec.isLt _)]
    exact hsame.symm
  · -- the body
    rw [List.set_append_right _ _ (by rw [length_leBytes]; omega), length_leBytes,
      List.drop_left' (by simp), List.take_left' (by simp), leNat_leBytes (BitVec.isLt _), BitVec.ofNat_toNat,
      BitVec.setWidth_eq] at hcrc
    rw [List.getElem?_append_right (by rw [length_leBytes]; omega), length_leBytes] at hb
    have hi : q - 4 - 4 < body.length := by omega
    rw [List.getElem?_eq_getElem hi, ne_eq, Option.some.injEq] at hb
    rw [List.set_eq_take_append_cons_drop, if_pos hi] at hcrc
    refine crc32c_ne_of_one_byte (body.take (q - 4 - 4)) (body.drop (q - 4 - 4 + 1)) (Ne.symm hb) ?_
    rw [hcrc, ← List.drop_eq_getElem_cons hi, List.take_append_drop]

/-- A record that is there but does not decode stops replay. -/
theorem replaySegment_undecodable {n compactedTo offset : Nat} {isLast : Bool} {rest : Bytes}
    (acc : Recovered) (hne : rest ≠ []) (htear : ¬ isTear rest)
    (hdec : ∀ x, decodeRecord (rest.take (8 + leNat (rest.take 4))) ≠ .ok x) :
    ∃ e, replaySegment n isLast compactedTo rest.length offset rest acc = .error e := by
  obtain ⟨c, cs, rfl⟩ := List.exists_cons_of_ne_nil hne
  rw [List.length_cons, replaySegment, if_neg hne, if_neg htear]
  dsimp only
  rw [replayRecord]
  cases hbuf : decodeRecord ((c :: cs).take (8 + leNat ((c :: cs).take 4))) with
  | error e => exact ⟨_, rfl⟩
  | ok x => exact absurd hbuf (hdec x)

/-! ## Where the byte is -/

/-- A byte of a log: the records replay takes in before the one the byte belongs to, the records from that one
on to the end of the segment, the byte's offset in them, and whether the segment is the last one. -/
structure Site where
  before : List Record
  after : List Record
  offset : Nat
  isLast : Bool

/-- The site of byte `p` of segment `n`. -/
def Log.site (log : Log) (n p : Nat) : Site :=
  let rs := (log.get? n).getD []
  { before := log.recordsBefore n p
    after := framesFrom Record.encode p rs
    offset := p - (image (framesWithin Record.encode p rs)).length
    isLast := log.keys.all (· ≤ n) }

namespace Site

/-- What the segment holds from the damaged record on. -/
def damaged (site : Site) (b : UInt8) : Bytes := (image site.after).set site.offset b

/-- The bytes the damaged length field delimits do not happen to carry the right checksum. -/
def ChecksumCatches (site : Site) (b : UInt8) : Prop :=
  site.offset < 4 → ¬ isTear (site.damaged b) →
    (decodeRecord ((site.damaged b).take (8 + leNat ((site.damaged b).take 4)))).toOption = none

instance (site : Site) (b : UInt8) : Decidable (site.ChecksumCatches b) := by
  unfold ChecksumCatches; infer_instance

/-- **The change loses no committed entry**: it does not make the record look torn, or not in the last
segment, or within the commit window replay knows there, or behind entries with a gap; or no entry from
that record on is above the snapshot and at most `commit`. -/
def Harmless (site : Site) (b : UInt8) (mark commit : Nat) : Prop :=
  ¬ isTear (site.damaged b) ∨ site.isLast = false ∨ ¬ BeyondWindow mark site.before ∨
    ¬ Joins (entriesOf site.before) mark ∨
    ∀ e ∈ entriesOf site.after, ¬ (mark < e.index.toNat ∧ e.index.toNat ≤ commit)

instance (site : Site) (b : UInt8) (mark commit : Nat) : Decidable (site.Harmless b mark commit) := by
  unfold Harmless; infer_instance

end Site

/-- One byte of one segment is changed. -/
def Dir.corrupt (d : Dir) (n p : Nat) (b : UInt8) : Dir :=
  { d with segments := d.segments.modify n (·.set p b) }

variable {opts : WalOptions} {s : WalStorage} {log : Log} {base n p : Nat} {raw : Bytes} {b : UInt8}

/-- The site of a byte, spelled out. -/
theorem Inv.site_eq (h : Inv opts s log base) (hraw : s.dir.segments.get? n = some raw)
    (hp : p < raw.length) :
    ∃ pre xs r ys post, log.toList = pre ++ (n, xs ++ r :: ys) :: post ∧ raw = image (xs ++ r :: ys) ∧
      log.site n p = ⟨recordsOf pre ++ xs, r :: ys, p - (image xs).length, post.isEmpty⟩ ∧
      (image xs).length ≤ p ∧ p < (image xs).length + r.encode.length := by
  obtain ⟨bpre, bpost, hbytes⟩ := Assoc.toList_eq_of_get? hraw
  rw [h.stored.segments_eq, Log.bytes, Assoc.toList_map] at hbytes
  obtain ⟨pre, rest, hlog, -, hrest⟩ := List.map_eq_append_iff.mp hbytes
  obtain ⟨⟨m, rs⟩, post, rfl, hseg, -⟩ := List.map_eq_cons_iff.mp hrest
  obtain ⟨rfl, rfl⟩ : m = n ∧ image rs = raw := by simpa using hseg
  obtain ⟨hpre, hpost⟩ := Assoc.lt_of_toList_eq hlog
  obtain ⟨r, ys, hafter⟩ :=
    List.exists_cons_of_ne_nil (@Codec.framesFrom_ne_nil _ _ Record.encode p rs hp)
  have hsplit := Codec.framesWithin_append_framesFrom Record.encode p rs
  rw [hafter] at hsplit
  refine ⟨pre, framesWithin Record.encode p rs, r, ys, post, by rw [hsplit, hlog], by rw [hsplit], ?_,
    Codec.length_framesWithin_le Record.encode p rs, Codec.lt_of_framesFrom_eq Record.encode hafter⟩
  have hlast : log.keys.all (· ≤ m) = post.isEmpty := by
    rw [Assoc.keys, hlog]
    cases post with
    | nil =>
        simp only [List.map_append, List.all_append, List.map_cons, List.map_nil, List.all_cons, le_refl,
          decide_true, List.all_nil, Bool.and_true, List.isEmpty_nil, List.all_map, List.all_eq_true,
          Function.comp_apply, decide_eq_true_eq]
        exact fun x hx => (hpre x hx).le
    | cons y post =>
        have := hpost y (by simp)
        simp [Nat.not_le.mpr this]
  rw [Log.site, Log.recordsBefore_eq hlog, Assoc.get?_of_toList_eq hlog, Option.getD_some, hafter, hlast]

/-- The damaged directory: the same records up to the site, then the damaged bytes. -/
theorem Inv.corrupt_segments (h : Inv opts s log base) {pre post : List (Nat × List Record)}
    {xs after : List Record} (hlog : log.toList = pre ++ (n, xs ++ after) :: post)
    (hle : (image xs).length ≤ p) :
    (s.dir.corrupt n p b).segments.toList = pre.map (fun p => (p.1, image p.2)) ++
      (n, image xs ++ (image after).set (p - (image xs).length) b) ::
        post.map fun p => (p.1, image p.2) := by
  have hbytes : s.dir.segments.toList = pre.map (fun p => (p.1, image p.2)) ++
      (n, image (xs ++ after)) :: post.map fun p => (p.1, image p.2) := by
    rw [h.stored.segments_eq, Log.bytes, Assoc.toList_map, hlog, List.map_append, List.map_cons]
  rw [Dir.corrupt, Assoc.toList_modify_of_eq _ hbytes, image_append, List.set_append_right _ _ hle]

/-- A damaged record that does not look torn does not decode. -/
theorem Site.undecodable {before ys : List Record} {r : Record} {q : Nat} {isLast : Bool} (hr : r.Fits)
    (hq : q < r.encode.length) (hb : r.encode[q]? ≠ some b)
    (hsum : (Site.mk before (r :: ys) q isLast).ChecksumCatches b)
    (htear : ¬ isTear ((image (r :: ys)).set q b)) (x : RecordType × Bytes) :
    decodeRecord (((image (r :: ys)).set q b).take (8 + leNat (((image (r :: ys)).set q b).take 4))) ≠
      .ok x := by
  by_cases h4 : q < 4
  · intro hok
    have hnone := hsum h4 htear
    rw [Site.damaged, hok] at hnone
    cases hnone
  · -- the length is what it was, so it delimits this record
    have h8 := eight_le_length_encode r
    have hset : (image (r :: ys)).set q b = r.encode.set q b ++ image ys := by
      rw [image_cons, List.set_append_left _ _ hq]
    have htake : (r.encode.set q b ++ image ys).take 4 = (r.encode ++ image ys).take 4 := by
      rw [List.take_append_of_le_length (by rw [List.length_set]; omega),
        List.take_append_of_le_length (by omega), List.take_set_of_le (Nat.not_lt.mp h4)]
    rw [hset, htake, size_encode_append hr, List.take_left' (List.length_set ..)]
    exact decodeRecord_set_ne hr (Nat.not_lt.mp h4) hq hb x

/-- **Opening a damaged directory** succeeds exactly if the damage looks like a torn tail: the length runs past
the end of the last segment, beyond the commit window and behind entries without a gap. -/
theorem Inv.openDir_corrupt_eq_ok (h : Inv opts s log base) (config : WalConfig)
    {pre post : List (Nat × List Record)} {xs ys : List Record} {r : Record} {t : WalStorage}
    (hlog : log.toList = pre ++ (n, xs ++ r :: ys) :: post) (hle : (image xs).length ≤ p)
    (hlt : p < (image xs).length + r.encode.length) (hb : (image (xs ++ r :: ys))[p]? ≠ some b)
    (hsum : (Site.mk (recordsOf pre ++ xs) (r :: ys) (p - (image xs).length) post.isEmpty).ChecksumCatches b) :
    (openDir (s.dir.corrupt n p b) { opts with config }).2 = .ok t ↔
      isTear ((image (r :: ys)).set (p - (image xs).length) b) ∧ post = [] ∧
        BeyondWindow (watermark s.snapshot) (recordsOf pre ++ xs) ∧
        Joins (entriesOf (recordsOf pre ++ xs)) (watermark s.snapshot) ∧
        t = openedTorn { opts with config } (s.dir.corrupt n p b) s.metaRecord n (image xs).length
          (recordsOf pre ++ xs)
          ((entriesOf (recordsOf pre ++ xs)).filter (watermark s.snapshot < ·.index.toNat)) := by
  have hseg := h.corrupt_segments (b := b) hlog hle
  have hsnap : Loads { opts with config } (s.dir.corrupt n p b).metaFile (s.dir.corrupt n p b).snapshots
      s.metaRecord s.snapshot := h.snapped.toLoads.withConfig config
  have hfits := h.stored.fits
  rw [Log.records, hlog, recordsOf_append, recordsOf_cons] at hfits
  simp only [List.forall_mem_append, List.forall_mem_cons] at hfits
  obtain ⟨hpre, ⟨hxs, hr, -⟩, -⟩ := hfits
  have hfits' : ∀ r ∈ recordsOf pre ++ xs, r.Fits := List.forall_mem_append.mpr ⟨hpre, hxs⟩
  have hne : (image (r :: ys)).set (p - (image xs).length) b ≠ [] := by
    intro hnil
    have hlen := congrArg List.length hnil
    have h8 := eight_le_length_encode r
    rw [List.length_set, image_cons, List.length_append, List.length_nil] at hlen
    omega
  have hrec := recoverWal_damaged hseg hfits' (watermark s.snapshot)
  -- replay fails, and the open with it, unless the damage is a tear of the last segment
  have hfail : ∀ {e}, recoverWal (s.dir.corrupt n p b) (watermark s.snapshot) = .error e →
      (openDir (s.dir.corrupt n p b) { opts with config }).2 ≠ .ok t := by
    intro e herr hok
    rw [openDir_of_recoverWal hsnap herr] at hok
    cases hok
  by_cases htear : isTear ((image (r :: ys)).set (p - (image xs).length) b)
  · cases post with
    | nil =>
        rw [@openDir_torn_eq_ok pre n xs _ _ _ _ _ hsnap hseg hfits' hne htear]
        exact ⟨fun h' => ⟨htear, rfl, h'⟩, fun h' => h'.2.2⟩
    | cons y post =>
        rw [replaySegment_tear _ hne htear] at hrec
        refine iff_of_false ?_ fun h' => absurd h'.2.1 (List.cons_ne_nil y post)
        cases htorn : replayTear n false (watermark s.snapshot) (image xs).length
            (gathered (recordsOf pre ++ xs)) with
        | error e => exact hfail (hrec.trans (by rw [List.map_cons, List.isEmpty_cons, htorn]))
        | ok acc => exact absurd (replayTear_eq_ok.mp htorn).1 Bool.false_ne_true
  · refine iff_of_false ?_ fun h' => htear h'.1
    have hb' : r.encode[p - (image xs).length]? ≠ some b := by
      rwa [image_append, List.getElem?_append_right hle, image_cons,
        List.getElem?_append_left (by omega)] at hb
    obtain ⟨e, he⟩ := @replaySegment_undecodable n (watermark s.snapshot) (image xs).length post.isEmpty _
      (gathered (recordsOf pre ++ xs)) hne htear (Site.undecodable hr (by omega) hb' hsum htear)
    exact hfail (hrec.trans (by rw [List.isEmpty_map, he]))

/-! ## What is lost -/

/-- The entries at or below `commit` that are above the snapshot are all still there. -/
def Retains (s : WalStorage) (commit : Nat) (t : WalStorage) : Prop :=
  ∀ e ∈ s.entries, watermark s.snapshot < e.index.toNat → e.index.toNat ≤ commit → e ∈ t.entries

/-- Cutting the last segment before some record loses the entries from that record on. -/
theorem Inv.retains_iff (h : Inv opts s log base) {pre : List (Nat × List Record)} {xs after : List Record}
    (hlog : log.toList = pre ++ [(n, xs ++ after)]) {commit : Nat} {t : WalStorage}
    (ht : t.entries = (entriesOf (recordsOf pre ++ xs)).filter (watermark s.snapshot < ·.index.toNat)) :
    Retains s commit t ↔
      ∀ e ∈ entriesOf after, ¬ (watermark s.snapshot < e.index.toNat ∧ e.index.toNat ≤ commit) := by
  have hent : log.entries = entriesOf (recordsOf pre ++ xs) ++ entriesOf after := by
    simp [Log.entries, Log.records, hlog, recordsOf_append]
  have hsorted := h.indexed.laid.sorted
  rw [← Log.records, ← Log.entries, hent, List.pairwise_append] at hsorted
  constructor
  · rintro hret e he ⟨hgt, hle⟩
    have hbase := h.base_le
    have hmem : e ∈ s.entries := by
      rw [h.indexed.entries_eq, hent]
      refine List.mem_filter.mpr ⟨List.mem_append_right _ he, ?_⟩
      simp only [decide_eq_true_eq]
      omega
    have hstill := hret e hmem hgt hle
    rw [ht] at hstill
    -- it would stand before itself
    exact absurd (hsorted.2.2 e (List.mem_filter.mp hstill).1 e he) (Nat.lt_irrefl _)
  · intro hnone e he hgt hle
    rw [h.indexed.entries_eq, hent] at he
    rw [ht]
    refine List.mem_filter.mpr ⟨?_, by simpa using hgt⟩
    rcases List.mem_append.mp (List.mem_filter.mp he).1 with hbefore | hafter
    · exact hbefore
    · exact absurd ⟨hgt, hle⟩ (hnone e hafter)

/-- Three entries and the hard state that commits them, in one segment. -/
def committedRun : List Op :=
  [.append [sampleEntry 1 1, sampleEntry 2 1, sampleEntry 3 1], .setHardState ⟨1, none, 3⟩]

end Arachne.Storage
