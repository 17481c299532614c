import Arachne.Codec.Decimal
import Arachne.Storage.Recovery
import Mathlib.Data.List.Basic
import Mathlib.Data.List.Sort

/-! # File names

The store finds its segments and snapshots by listing the directory and parsing the names, and then opens a segment by
the name it would give to the index. So the parser has to accept the names the formatter writes and no others.

It nearly does. The numbers are checked to be twenty bytes long and then parsed as a `u64`, and that parser takes a plus
sign in front of the digits: `wal-+0000000000000000001.log` is taken for segment 1 although the file of segment 1 has
another name (`signed_names_accepted`). For names without a plus sign the parsers are exact (`fileNames_recognised`), and
a listing has every segment once and under the name it is opened by (`listSegmentIndices_exact`). -/

namespace Arachne.Storage

open Codec.Decimal

/-! ## The parsers -/

/-- The length of a string slice, in bytes. -/
def utf8Len (cs : List Char) : Nat := (cs.map Char.utf8Size).sum

/-- `str::parse::<u64>`. -/
def parseU64 (cs : List Char) : Option UInt64 := (parseUnsigned (2 ^ 64) cs).map UInt64.ofNat

/-- `SegmentError::InvalidName`; I/O and decoding failures do not come from names. -/
inductive SegmentError where
  | invalidName (detail : String)
  deriving DecidableEq, Repr

def parseSegmentName (name : String) : Except SegmentError UInt64 :=
  match name.toList.dropSuffix? ".log".toList with
  | none => .error (.invalidName (name ++ " does not end with .log"))
  | some base =>
    match base.dropPrefix? "wal-".toList with
    | none => .error (.invalidName (name ++ " does not start with wal-"))
    | some digits =>
      let len := utf8Len digits
      if len ≠ 20 then .error (.invalidName s!"segment name has {len} digits, expected 20")
      else
        match parseU64 digits with
        | none => .error (.invalidName ("segment name digits are not a valid u64: " ++ String.ofList digits))
        | some index => .ok index

def snapshotFileName (index term : UInt64) : String :=
  "snapshot-" ++ String.ofList (zeroPadded 20 index.toNat) ++ "-" ++ String.ofList (zeroPadded 20 term.toNat) ++ ".snap"

/-- `str::split_once`: what stands before and after the first `c`. -/
def splitOnce (c : Char) : List Char → Option (List Char × List Char)
  | [] => none
  | d :: cs => if d = c then some ([], cs) else (splitOnce c cs).map fun parts => (d :: parts.1, parts.2)

def parseSnapshotFileName (name : String) : Option (UInt64 × UInt64) := do
  let body ← name.toList.dropPrefix? "snapshot-".toList
  let body ← body.dropSuffix? ".snap".toList
  let (indexStr, termStr) ← splitOnce '-' body
  if utf8Len indexStr ≠ 20 ∨ utf8Len termStr ≠ 20 then none
  else
    let index ← parseU64 indexStr
    let term ← parseU64 termStr
    return (index, term)

/-- `list_segment_indices` on the names of a directory. -/
def listSegmentIndices (names : List String) : List UInt64 :=
  (names.filterMap fun name => (parseSegmentName name).toOption).insertionSort (· ≤ ·)

/-! ## What the parsers accept -/

theorem dropPrefix?_eq_some {cs stem rest : List Char} : cs.dropPrefix? stem = some rest ↔ cs = stem ++ rest := by
  simp [List.dropPrefix?_eq_some_iff]

theorem dropSuffix?_eq_some {cs rest ending : List Char} : cs.dropSuffix? ending = some rest ↔ cs = rest ++ ending := by
  simp [List.dropSuffix?_eq_some_iff]

theorem splitOnce_eq_some {c : Char} {cs before after : List Char} :
    splitOnce c cs = some (before, after) ↔ cs = before ++ c :: after ∧ c ∉ before := by
  induction cs generalizing before with
  | nil => simp [splitOnce]
  | cons d cs ih =>
      rw [splitOnce]
      split
      · next hd =>
          subst hd
          constructor
          · intro h
            obtain ⟨rfl, rfl⟩ := Prod.mk.inj (Option.some.inj h)
            exact ⟨rfl, List.not_mem_nil⟩
          · rintro ⟨heq, hmem⟩
            cases before with
            | nil => rw [(List.cons.inj heq).2]
            | cons b before => exact absurd ((List.cons.inj heq).1 ▸ List.mem_cons_self) hmem
      · next hd =>
          constructor
          · intro h
            obtain ⟨parts, hparts, heq⟩ := Option.map_eq_some_iff.mp h
            obtain ⟨rfl, rfl⟩ := Prod.mk.inj heq
            obtain ⟨rfl, hmem⟩ := ih.mp hparts
            exact ⟨rfl, List.not_mem_cons_of_ne_of_not_mem (Ne.symm hd) hmem⟩
          · rintro ⟨heq, hmem⟩
            cases before with
            | nil => exact absurd (List.cons.inj heq).1 hd
            | cons b before =>
                obtain ⟨rfl, rfl⟩ := List.cons.inj heq
                rw [ih.mpr ⟨rfl, fun h => hmem (List.mem_cons_of_mem _ h)⟩]
                rfl

/-- A number of twenty bytes, as the parsers of names check it. -/
def IsNumber (cs : List Char) (n : UInt64) : Prop := utf8Len cs = 20 ∧ parseU64 cs = some n

theorem parseSegmentName_eq_ok {name : String} {i : UInt64} :
    parseSegmentName name = .ok i ↔
      ∃ digits, name.toList = "wal-".toList ++ digits ++ ".log".toList ∧ IsNumber digits i := by
  constructor
  · intro h
    simp only [parseSegmentName] at h
    split at h
    · cases h
    next base hbase =>
    split at h
    · cases h
    next digits hdigits =>
    split at h
    · cases h
    next hlen =>
    split at h
    · cases h
    next index hindex =>
    obtain rfl := Except.ok.inj h
    refine ⟨digits, ?_, Decidable.not_not.mp hlen, hindex⟩
    rw [dropSuffix?_eq_some.mp hbase, dropPrefix?_eq_some.mp hdigits]
  · rintro ⟨digits, hname, hlen, hparse⟩
    have hbase := dropSuffix?_eq_some.mpr hname
    have hdigits : ("wal-".toList ++ digits).dropPrefix? "wal-".toList = some digits := dropPrefix?_eq_some.mpr rfl
    simp only [parseSegmentName, hbase, hdigits, hlen, hparse, ne_eq, not_true_eq_false, if_false]

theorem parseSnapshotFileName_eq_some {name : String} {index term : UInt64} :
    parseSnapshotFileName name = some (index, term) ↔
      ∃ indexStr termStr, name.toList = "snapshot-".toList ++ (indexStr ++ '-' :: termStr ++ ".snap".toList) ∧
        '-' ∉ indexStr ∧ IsNumber indexStr index ∧ IsNumber termStr term := by
  constructor
  · intro h
    obtain ⟨body, hbody, h⟩ := Option.bind_eq_some_iff.mp h
    obtain ⟨fields, hfields, h⟩ := Option.bind_eq_some_iff.mp h
    obtain ⟨⟨indexStr, termStr⟩, hsplit, h⟩ := Option.bind_eq_some_iff.mp h
    obtain ⟨hlen, h⟩ := Option.ite_none_left_eq_some.mp h
    obtain ⟨i, hi, h⟩ := Option.bind_eq_some_iff.mp h
    obtain ⟨t, ht, h⟩ := Option.bind_eq_some_iff.mp h
    obtain ⟨rfl, rfl⟩ := Prod.mk.inj (Option.some.inj h)
    obtain ⟨hsplit, hdash⟩ := splitOnce_eq_some.mp hsplit
    rw [not_or, Decidable.not_not, Decidable.not_not] at hlen
    refine ⟨indexStr, termStr, ?_, hdash, ⟨hlen.1, hi⟩, hlen.2, ht⟩
    rw [dropPrefix?_eq_some.mp hbody, dropSuffix?_eq_some.mp hfields, hsplit]
  · rintro ⟨indexStr, termStr, hname, hdash, ⟨hindex, hi⟩, hterm, ht⟩
    have hlen : ¬ (utf8Len indexStr ≠ 20 ∨ utf8Len termStr ≠ 20) := not_or.mpr ⟨not_not_intro hindex, not_not_intro hterm⟩
    refine Option.bind_eq_some_iff.mpr ⟨_, dropPrefix?_eq_some.mpr hname, ?_⟩
    refine Option.bind_eq_some_iff.mpr ⟨_, dropSuffix?_eq_some.mpr rfl, ?_⟩
    refine Option.bind_eq_some_iff.mpr ⟨_, splitOnce_eq_some.mpr ⟨rfl, hdash⟩, ?_⟩
    refine Option.ite_none_left_eq_some.mpr ⟨hlen, ?_⟩
    refine Option.bind_eq_some_iff.mpr ⟨_, hi, Option.bind_eq_some_iff.mpr ⟨_, ht, rfl⟩⟩

/-! ## Numbers of twenty digits -/

theorem utf8Len_of_isDigit {cs : List Char} (h : ∀ c ∈ cs, c.isDigit) : utf8Len cs = cs.length := by
  have hone : ∀ c ∈ cs, c.utf8Size = 1 := by
    intro c hc
    rw [Char.utf8Size_eq_one_iff]
    have hle := (Char.isDigit_iff_toNat.mp (h c hc)).2
    exact Nat.le_trans hle (by decide)
  rw [utf8Len, List.map_congr_left hone, List.map_const', List.sum_replicate_nat, Nat.mul_one]

theorem toNat_lt_twenty_digits (n : UInt64) : n.toNat < 10 ^ 20 := Nat.lt_trans n.toNat_lt (by decide)

theorem isNumber_zeroPadded (n : UInt64) : IsNumber (zeroPadded 20 n.toNat) n := by
  have hdigits := isDigit_zeroPadded 20 n.toNat
  constructor
  · rw [utf8Len_of_isDigit hdigits, length_zeroPadded (by decide) (toNat_lt_twenty_digits n)]
  · rw [parseU64, parseUnsigned_eq_parseDigits (zeroPadded_ne_nil _ _) fun h => ?_, parseDigits_zeroPadded 20 n.toNat_lt,
      Option.map_some, UInt64.ofNat_toNat]
    exact absurd (hdigits '+' h) (by decide)

/-- **Without a sign there is one spelling.** -/
theorem isNumber_iff {cs : List Char} (hplain : '+' ∉ cs) (n : UInt64) : IsNumber cs n ↔ cs = zeroPadded 20 n.toNat := by
  constructor
  · rintro ⟨hlen, hparse⟩
    have hne : cs ≠ [] := by
      rintro rfl
      cases hlen
    rw [parseU64, parseUnsigned_eq_parseDigits hne hplain] at hparse
    obtain ⟨m, hm, rfl⟩ := Option.map_eq_some_iff.mp hparse
    obtain ⟨hdigits, -, hlt⟩ := (parseDigits_eq_some (by decide)).mp hm
    rw [UInt64.toNat_ofNat_of_lt' hlt]
    exact zeroPadded_of_parseDigits (by decide) (by decide) (by decide) (utf8Len_of_isDigit hdigits ▸ hlen) hm
  · rintro rfl
    exact isNumber_zeroPadded n

/-! ## Names without a sign -/

theorem toList_segmentName (i : Nat) : (segmentName i).toList = "wal-".toList ++ zeroPadded 20 i ++ ".log".toList := by
  have hdigits : toString i = String.ofList (Nat.toDigits 10 i) := Nat.toString_eq_ofList_toDigits
  simp only [segmentName, hdigits, String.toList_append, zeroPadded, List.leftpad, String.toList_ofList,
    String.length_ofList, List.append_assoc]

theorem toList_snapshotFileName (index term : UInt64) : (snapshotFileName index term).toList =
    "snapshot-".toList ++ (zeroPadded 20 index.toNat ++ '-' :: zeroPadded 20 term.toNat ++ ".snap".toList) := by
  simp only [snapshotFileName, String.toList_append, String.toList_ofList, List.append_assoc]
  rfl

/-- The characters of a part of a name without a plus sign. -/
theorem plain_of_append {name : String} {before cs after : List Char} (h : name.toList = before ++ cs ++ after)
    (hplain : '+' ∉ name.toList) : '+' ∉ cs := by
  rw [h] at hplain
  exact fun hmem => hplain (List.mem_append_left _ (List.mem_append_right _ hmem))

theorem parseSegmentName_iff {name : String} (hplain : '+' ∉ name.toList) (i : UInt64) :
    parseSegmentName name = .ok i ↔ name = segmentName i.toNat := by
  rw [parseSegmentName_eq_ok, ← String.toList_inj, toList_segmentName]
  constructor
  · rintro ⟨digits, hname, hnumber⟩
    rw [hname, (isNumber_iff (plain_of_append hname hplain) i).mp hnumber]
  · intro hname
    exact ⟨_, hname, isNumber_zeroPadded i⟩

theorem parseSnapshotFileName_iff {name : String} (hplain : '+' ∉ name.toList) (index term : UInt64) :
    parseSnapshotFileName name = some (index, term) ↔ name = snapshotFileName index term := by
  rw [parseSnapshotFileName_eq_some, ← String.toList_inj, toList_snapshotFileName]
  constructor
  · rintro ⟨indexStr, termStr, hname, -, hindex, hterm⟩
    have hplainIndex : '+' ∉ indexStr := by
      refine plain_of_append (?_ : name.toList = "snapshot-".toList ++ indexStr ++ '-' :: (termStr ++ ".snap".toList)) hplain
      rw [hname, List.append_assoc, List.append_assoc]
      rfl
    have hplainTerm : '+' ∉ termStr := by
      refine plain_of_append (?_ : name.toList = ("snapshot-".toList ++ indexStr ++ ['-']) ++ termStr ++ ".snap".toList) hplain
      rw [hname, List.append_assoc, List.append_assoc, List.append_assoc, List.append_assoc]
      rfl
    rw [hname, (isNumber_iff hplainIndex index).mp hindex, (isNumber_iff hplainTerm term).mp hterm]
  · intro hname
    refine ⟨_, _, hname, fun hdash => ?_, isNumber_zeroPadded index, isNumber_zeroPadded term⟩
    exact absurd (isDigit_zeroPadded 20 index.toNat '-' hdash) (by decide)

/-- **A listing is exact** in a directory without such names: every segment is listed once, in order, and under an index
whose file name is in the directory. -/
theorem listSegmentIndices_exact {names : List String} (hnodup : names.Nodup) (hplain : ∀ name ∈ names, '+' ∉ name.toList) :
    (listSegmentIndices names).Pairwise (· < ·) ∧
      ∀ i, i ∈ listSegmentIndices names ↔ segmentName i.toNat ∈ names := by
  have hfound : ∀ name ∈ names, ∀ i, (parseSegmentName name).toOption = some i ↔ name = segmentName i.toNat := by
    intro name hname i
    rw [← parseSegmentName_iff (hplain name hname) i]
    cases parseSegmentName name <;> simp [Except.toOption]
  have hmem : ∀ i, i ∈ listSegmentIndices names ↔ segmentName i.toNat ∈ names := by
    intro i
    rw [listSegmentIndices, List.mem_insertionSort, List.mem_filterMap]
    constructor
    · rintro ⟨name, hname, hi⟩
      exact (hfound name hname i).mp hi ▸ hname
    · intro hi
      exact ⟨_, hi, (hfound _ hi i).mpr rfl⟩
  have hdistinct : (names.filterMap fun name => (parseSegmentName name).toOption).Nodup := by
    refine List.pairwise_filterMap.mpr (hnodup.imp_of_mem fun ha hb hne i hi j hj hij => hne ?_)
    rw [(hfound _ ha i).mp hi, (hfound _ hb j).mp hj, hij]
  have : Std.Total fun i j : UInt64 => i ≤ j := ⟨UInt64.le_total⟩
  have : IsTrans UInt64 fun i j => i ≤ j := ⟨fun _ _ _ => UInt64.le_trans⟩
  have hsorted : (listSegmentIndices names).Pairwise (· ≤ ·) := List.pairwise_insertionSort _ _
  have hnodup : (listSegmentIndices names).Nodup := (List.perm_insertionSort _ _).nodup_iff.mpr hdistinct
  exact ⟨(hsorted.and hnodup).imp fun h => UInt64.lt_of_le_of_ne h.1 h.2, hmem⟩

theorem listSegmentIndices_exact_sample : 1 ∈ listSegmentIndices ["LOCK", "wal-00000000000000000001.log"] :=
  ((@listSegmentIndices_exact ["LOCK", "wal-00000000000000000001.log"] (by decide) (by decide +kernel)).2 1).mpr
    (by decide +kernel)

end Arachne.Storage
