import Arachne.Data.OrdMap
import Arachne.Data.Prefix
import Arachne.StateMachine.Kv

/-! # Range reads

`get_range_with_index` lists the entries of a half-open interval of the keys, up to a limit, with the applied index of
the state it reads. A read by prefix is the interval from the prefix to its byte-successor, and unbounded above if it
has none. `mem_interval_successor` is that this interval holds the extensions of the prefix and nothing else. -/

namespace Arachne.StateMachine

open Codec

/-- `MAX_STALE_RANGE_ENTRIES`: the largest number of entries one read returns. -/
def maxStaleRangeEntries : Nat := 10000

/-- A bound of an interval of keys. -/
inductive Bound where
  | unbounded
  | included (key : Bytes)
  | excluded (key : Bytes)
  deriving DecidableEq, Repr

/-- The key is not below the bound. -/
def Bound.below (key : Bytes) : Bound → Bool
  | .unbounded => true
  | .included lo => decide (lo ≤ key)
  | .excluded lo => decide (lo < key)

/-- The key is not above the bound. -/
def Bound.above (key : Bytes) : Bound → Bool
  | .unbounded => true
  | .included hi => decide (key ≤ hi)
  | .excluded hi => decide (key < hi)

/-- `range` of the map, for an interval that is not reversed. -/
def KvMap.range (kv : KvMap) (lo hi : Bound) : List (Bytes × Entry) :=
  kv.toList.filter fun x => lo.below x.1 && hi.above x.1

/-- The loop over a range: it stops at the limit, and notes whether something was left. -/
def collect (limit : Nat) : List (Bytes × Bytes) → List (Bytes × Entry) → List (Bytes × Bytes) × Bool
  | out, [] => (out, false)
  | out, (key, entry) :: rest =>
    if out.length ≥ limit then (out, true) else collect limit (out ++ [(key, entry.val)]) rest

/-- `get_range_with_index`: the entries, the applied index and whether there were more. -/
def Store.getRangeWithIndex (st : Store) (start upper : Bytes) (limit : Nat) : List (Bytes × Bytes) × UInt64 × Bool :=
  let applied := st.applied
  let limit := min limit maxStaleRangeEntries
  let reversed := !start.isEmpty && !upper.isEmpty && decide (start ≥ upper)
  if reversed then ([], applied, false)
  else
    let (out, truncated) :=
      if start.isEmpty && upper.isEmpty then collect limit [] st.kv.toList
      else
        let lo := if start.isEmpty then .unbounded else .included start
        let hi := if upper.isEmpty then .unbounded else .excluded upper
        collect limit [] (st.kv.range lo hi)
    (out, applied, truncated)

/-- `successor`: the last byte below `0xFF` is incremented, and what is behind it is cut off. -/
def successor (stem : Bytes) : Option Bytes :=
  (List.range stem.length).reverse.findSome? fun i =>
    if stem.getD i 0 ≠ 0xFF then some (stem.take i ++ [stem.getD i 0 + 1]) else none

/-- The range `get_stale_prefix` reads. An empty upper bound is none. -/
def Store.getPrefix (st : Store) (stem : Bytes) (limit : Nat) : List (Bytes × Bytes) × UInt64 × Bool :=
  st.getRangeWithIndex stem ((successor stem).getD []) limit

/-! ## The loop -/

theorem collect_eq {limit : Nat} {out : List (Bytes × Bytes)} (h : out.length ≤ limit) (xs : List (Bytes × Entry)) :
    collect limit out xs =
      (out ++ (xs.take (limit - out.length)).map (fun x => (x.1, x.2.val)), decide (xs.length > limit - out.length)) := by
  induction xs generalizing out with
  | nil => simp [collect]
  | cons x xs ih =>
      obtain ⟨key, entry⟩ := x
      rw [collect]
      split_ifs with hfull
      · rw [Nat.sub_eq_zero_of_le hfull]
        simp
      · have hlen : (out ++ [(key, entry.val)]).length = out.length + 1 := by simp
        obtain ⟨room, hroom⟩ : ∃ room, limit - out.length = room + 1 := Nat.exists_eq_succ_of_ne_zero (by omega)
        have hrest : limit - (out.length + 1) = room := by omega
        rw [ih (by omega), hlen, hrest, hroom, List.take_succ_cons]
        simp

/-- The keys of an interval. An empty bound is none. -/
def inInterval (start upper key : Bytes) : Bool := decide (start ≤ key) && (upper.isEmpty || decide (key < upper))

/-- An interval that is reversed has no keys. -/
theorem inInterval_reversed {start upper : Bytes} (hupper : upper.isEmpty = false) (h : start ≥ upper) (key : Bytes) :
    inInterval start upper key = false := by
  refine Bool.eq_false_iff.mpr fun hin => ?_
  rw [inInterval, hupper, Bool.false_or, Bool.and_eq_true_iff, decide_eq_true_iff, decide_eq_true_iff] at hin
  exact List.not_lt.mpr h (List.lt_of_le_of_lt hin.1 hin.2)

theorem filter_inInterval_reversed (kv : KvMap) {start upper : Bytes}
    (h : (!start.isEmpty && !upper.isEmpty && decide (start ≥ upper)) = true) :
    (kv.toList.filter fun x => inInterval start upper x.1) = [] := by
  obtain ⟨hbounds, hge⟩ := Bool.and_eq_true_iff.mp h
  have hupper : upper.isEmpty = false := Bool.not_eq_true' _ ▸ (Bool.and_eq_true_iff.mp hbounds).2
  refine List.filter_eq_nil_iff.mpr fun x _ => ?_
  rw [inInterval_reversed hupper (of_decide_eq_true hge)]
  exact Bool.false_ne_true

theorem below_bound (start key : Bytes) :
    Bound.below key (if start.isEmpty then .unbounded else .included start) = decide (start ≤ key) := by
  cases start with
  | nil => exact (decide_eq_true (List.nil_le key)).symm
  | cons b start => rfl

theorem above_bound (upper key : Bytes) :
    Bound.above key (if upper.isEmpty then .unbounded else .excluded upper) =
      (upper.isEmpty || decide (key < upper)) := by
  cases upper with
  | nil => rfl
  | cons b upper => rfl

/-- **A range read** returns the first entries of its interval, and says whether it has more. -/
theorem Store.getRangeWithIndex_eq (st : Store) (start upper : Bytes) (limit : Nat) :
    st.getRangeWithIndex start upper limit =
      let entries := st.kv.toList.filter fun x => inInterval start upper x.1
      let bound := min limit maxStaleRangeEntries
      ((entries.take bound).map (fun x => (x.1, x.2.val)), st.applied, decide (entries.length > bound)) := by
  rw [Store.getRangeWithIndex]
  dsimp only
  by_cases hreversed : (!start.isEmpty && !upper.isEmpty && decide (start ≥ upper)) = true
  · rw [if_pos hreversed, filter_inInterval_reversed st.kv hreversed, List.take_nil]
    rfl
  rw [if_neg hreversed]
  by_cases hboth : (start.isEmpty && upper.isEmpty) = true
  · rw [if_pos hboth]
    obtain ⟨hstart, hupper⟩ := Bool.and_eq_true_iff.mp hboth
    have hall : (st.kv.toList.filter fun x => inInterval start upper x.1) = st.kv.toList := by
      refine List.filter_eq_self.mpr fun x _ => ?_
      rw [List.isEmpty_iff.mp hstart, inInterval, hupper, decide_eq_true (List.nil_le x.1)]
      rfl
    rw [hall, collect_eq (Nat.zero_le _)]
    rfl
  · rw [if_neg hboth]
    have hrange : st.kv.range (if start.isEmpty then .unbounded else .included start)
        (if upper.isEmpty then .unbounded else .excluded upper) =
        st.kv.toList.filter fun x => inInterval start upper x.1 := by
      refine List.filter_congr fun x _ => ?_
      rw [below_bound, above_bound]
      rfl
    rw [hrange, collect_eq (Nat.zero_le _)]
    rfl

/-! ## The byte-successor -/

theorem successor_snoc (stem : Bytes) (b : UInt8) :
    successor (stem ++ [b]) = if b ≠ 0xFF then some (stem ++ [b + 1]) else successor stem := by
  have hlen : (stem ++ [b]).length = stem.length + 1 := List.length_append
  have hlast : (stem ++ [b]).getD stem.length 0 = b := by simp
  have hfront : (stem ++ [b]).take stem.length = stem := List.take_left
  rw [successor, hlen, List.range_succ, List.reverse_append, List.reverse_singleton, List.singleton_append,
    List.findSome?_cons, hlast, hfront]
  split_ifs with hb
  · rfl
  · -- the bytes before the last one are those of `stem`
    rw [successor, ← List.head?_filterMap, ← List.head?_filterMap]
    refine congrArg List.head? (List.filterMap_congr fun i hi => ?_)
    have hi : i < stem.length := List.mem_range.mp (List.mem_reverse.mp hi)
    have hget : (stem ++ [b]).getD i 0 = stem.getD i 0 := by simp [List.getElem?_append_left hi]
    rw [hget, List.take_append_of_le_length (Nat.le_of_lt hi)]

/-- What the successor of a prefix is, if it has one. -/
theorem successor_spec (stem : Bytes) :
    match successor stem with
    | none => ∀ b ∈ stem, b = 0xFF
    | some upper => ∃ front a tops, stem = front ++ a :: tops ∧ upper = front ++ [a + 1] ∧ a ≠ 0xFF ∧ ∀ b ∈ tops, b = 0xFF := by
  induction stem using List.reverseRecOn with
  | nil => exact fun b hb => by cases hb
  | append_singleton stem b ih =>
      rw [successor_snoc]
      split_ifs with hb
      · exact ⟨stem, b, [], rfl, rfl, hb, fun c hc => by cases hc⟩
      · have hb : b = 0xFF := not_not.mp hb
        cases hsucc : successor stem with
        | none =>
            rw [hsucc] at ih
            intro c hc
            rcases List.mem_append.mp hc with hc | hc
            · exact ih c hc
            · exact (List.mem_singleton.mp hc).trans hb
        | some upper =>
            rw [hsucc] at ih
            obtain ⟨front, a, tops, hstem, hupper, ha, htops⟩ := ih
            refine ⟨front, a, tops ++ [b], by rw [hstem]; simp, hupper, ha, ?_⟩
            intro c hc
            rcases List.mem_append.mp hc with hc | hc
            · exact htops c hc
            · exact (List.mem_singleton.mp hc).trans hb

example : successor [1, 0xFF] = some [2] ∧ successor [0xFF, 0xFF] = none := by decide

theorem le_top (x : UInt8) : x ≤ 0xFF := by
  rw [UInt8.le_iff_toNat_le]
  exact Nat.le_of_lt_succ x.toNat_lt

/-- A byte below `0xFF` and the next one. -/
theorem next_byte {a : UInt8} (ha : a ≠ 0xFF) : Lexicographic.Next a (a + 1) := by
  intro x
  have hlt : a.toNat < 255 := by
    have hne : a.toNat ≠ 255 := fun heq => ha (UInt8.toNat_inj.mp heq)
    have := a.toNat_lt
    omega
  rw [UInt8.lt_iff_toNat_lt, UInt8.le_iff_toNat_le, UInt8.toNat_add]
  show x.toNat < (a.toNat + 1) % 256 ↔ _
  rw [Nat.mod_eq_of_lt (by omega)]
  exact Nat.lt_succ_iff

/-- **The interval of a prefix** holds its extensions, and nothing else. -/
theorem mem_interval_successor (stem key : Bytes) :
    inInterval stem ((successor stem).getD []) key = true ↔ stem <+: key := by
  have hspec := successor_spec stem
  rw [inInterval, Bool.and_eq_true_iff, decide_eq_true_iff]
  cases hsucc : successor stem with
  | none =>
      rw [hsucc] at hspec
      refine (and_iff_left rfl).trans ?_
      exact Lexicographic.isPrefix_iff_of_top le_top hspec key
  | some upper =>
      rw [hsucc] at hspec
      obtain ⟨front, a, tops, rfl, rfl, ha, htops⟩ := hspec
      have hne : (front ++ [a + 1]).isEmpty = false := by simp
      rw [Option.getD_some, hne, Bool.false_or, decide_eq_true_iff]
      exact Lexicographic.isPrefix_iff_of_next le_top (next_byte ha) htops front key

/-- **Prefix reads are exact.** They return, in the order of the keys, the first entries of those whose key starts with
the prefix, the applied index of the state they are read from, and whether there are more such keys. -/
theorem prefix_read_exact (st : Store) (stem : Bytes) (limit : Nat) :
    ∃ entries : List (Bytes × Entry),
      (∀ key entry, (key, entry) ∈ entries ↔ st.kv[key]? = some entry ∧ stem <+: key) ∧
      entries.Pairwise (fun x y => x.1 < y.1) ∧
      st.getPrefix stem limit =
        ((entries.take (min limit 10000)).map (fun x => (x.1, x.2.val)), st.applied,
          decide (entries.length > min limit 10000)) := by
  refine ⟨st.kv.toList.filter fun x => inInterval stem ((successor stem).getD []) x.1, ?_, ?_, ?_⟩
  · intro key entry
    rw [List.mem_filter, Std.ExtTreeMap.mem_toList_iff_getElem?_eq_some, mem_interval_successor]
  · refine List.Pairwise.filter _ ((OrdMap.ascending_toList st.kv).imp fun {x y} hlt => ?_)
    exact Lexicographic.compare_eq_lt.mp hlt
  · exact st.getRangeWithIndex_eq stem _ limit

end Arachne.StateMachine
