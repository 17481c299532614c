import Arachne.Storage.Consecutive

/-! # Reading the log

`entries(low, high, max_size)` slices the in-memory log by position, so it is right for a store whose first
entry is the one behind the watermark. That is what `open` leaves (`aligned_of_openDir`). -/

namespace Arachne.Storage

/-- The longest run of entries from the front whose payloads stay within a limit. -/
def keepWithin (limit : Nat) : Nat → List LogEntry → List LogEntry
  | _, [] => []
  | size, e :: es =>
    let add := e.data.length
    if size + add > limit then [] else e :: keepWithin limit (size + add) es

/-- `entries`: those in `[low, high)`, up to a size. -/
def WalStorage.entriesIn (s : WalStorage) (low high : Nat) (maxSize : Option Nat) :
    Except StorageError (List LogEntry) :=
  if low ≥ high then .ok []
  else if low < s.firstIndex then .error .compacted
  else if high > s.lastIndex + 1 then .error .compacted
  else
    let out := (s.entries.drop (low - s.firstIndex)).take (high - low)
    match maxSize with
    | none => .ok out
    | some limit => .ok (keepWithin limit 0 out)

theorem keepWithin_isInitial (limit size : Nat) (es : List LogEntry) : keepWithin limit size es <+: es := by
  induction es generalizing size with
  | nil => exact List.prefix_rfl
  | cons e es ih =>
      rw [keepWithin]
      split
      · exact List.nil_prefix
      · exact List.cons_prefix_cons.mpr ⟨rfl, ih _⟩

/-- What a read within the log returns: some of the entries asked for, from the front. -/
theorem WalStorage.entriesIn_eq {s : WalStorage} {low high : Nat} (hlow : s.firstIndex ≤ low) (hlt : low < high) (hhigh : high ≤ s.lastIndex + 1)
    (maxSize : Option Nat) : ∃ es, s.entriesIn low high maxSize = .ok es ∧ es <+: s.entries.drop (low - s.firstIndex) := by
  rw [entriesIn, if_neg (Nat.not_le_of_lt hlt), if_neg (Nat.not_lt_of_le hlow), if_neg (Nat.not_lt_of_le hhigh)]
  cases maxSize with
  | none => exact ⟨_, rfl, List.take_prefix _ _⟩
  | some limit => exact ⟨_, rfl, (keepWithin_isInitial _ _ _).trans (List.take_prefix _ _)⟩

/-- The in-memory log starts right behind the watermark. -/
def WalStorage.Aligned (s : WalStorage) : Prop := Consecutive (s.compactedTo + 1) s.entries

namespace WalStorage.Aligned

variable {s : WalStorage} (h : s.Aligned)
include h

theorem lastIndex_eq : s.lastIndex = s.compactedTo + s.entries.length := by
  rw [WalStorage.lastIndex, Consecutive.lastEntryIndex? h]
  split_ifs with hnil
  · rw [hnil]
    rfl
  · rw [Option.getD_some]
    omega

/-- An entry in range can be read on its own. -/
theorem entriesIn_single {low : Nat} (hlow : s.firstIndex ≤ low) (hle : low ≤ s.lastIndex) :
    ∃ e, s.entriesIn low (low + 1) none = .ok [e] ∧ [e] <+: s.entries.drop (low - s.firstIndex) := by
  rw [entriesIn, if_neg (by omega), if_neg (Nat.not_lt_of_le hlow), if_neg (by omega), Nat.add_sub_cancel_left]
  have hlast := h.lastIndex_eq
  have hlen : low - s.firstIndex < s.entries.length := by
    rw [firstIndex] at hlow ⊢
    omega
  refine ⟨s.entries.get ⟨low - s.firstIndex, hlen⟩, ?_, ?_⟩
  · rw [List.drop_eq_getElem_cons hlen]
    rfl
  · rw [List.drop_eq_getElem_cons hlen]
    exact List.cons_prefix_cons.mpr ⟨rfl, List.nil_prefix⟩

end WalStorage.Aligned

/-- A store that was just opened is aligned, and its log starts at its snapshot. -/
theorem aligned_of_openDir {dir dir' : Dir} {opts : WalOptions} {s : WalStorage}
    (h : WalStorage.openDir dir opts = (dir', .ok s)) : s.Aligned ∧ s.compactedTo = WalStorage.watermark s.snapshot := by
  rw [WalStorage.openDir] at h
  split at h
  · cases h
  · dsimp only at h
    split at h
    · cases h
    · split at h
      · cases h
      · next hcheck =>
          obtain ⟨-, hs⟩ := Prod.mk.inj h
          obtain rfl := Except.ok.inj hs
          obtain ⟨-, hjoins, -, rfl⟩ := WalStorage.checkRecovered_eq_ok.mp hcheck
          exact ⟨hjoins.gapless.consecutive_above, rfl⟩

end Arachne.Storage
