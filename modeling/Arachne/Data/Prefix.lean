import Mathlib.Data.List.Induction

/-! # Prefixes as intervals

Words over a linearly ordered alphabet, in the lexicographic order. The words that start with a given one are an
interval of that order: from the word itself up to, and without, the word whose last letter that has a next one is
replaced by it and whose rest is cut off (`isPrefix_iff_of_next`). A word that consists of greatest letters has no such
bound, and every word above it starts with it (`isPrefix_iff_of_top`). -/

namespace Lexicographic

section Interval

variable {α : Type} [LT α] [LE α] [Std.IsLinearOrder α] [Std.LawfulOrderLT α]

/-- `b` is the letter after `a`. -/
def Next (a b : α) : Prop := ∀ x, x < b ↔ x ≤ a

theorem isPrefix_iff_of_top {top : α} (htop : ∀ x, x ≤ top) {tops : List α} (h : ∀ c ∈ tops, c = top) (key : List α) :
    tops ≤ key ↔ tops <+: key := by
  induction tops generalizing key with
  | nil => exact ⟨fun _ => List.nil_prefix, fun _ => List.nil_le key⟩
  | cons c tops ih =>
      rw [List.forall_mem_cons] at h
      cases key with
      | nil => simp
      | cons k key =>
          rw [List.cons_le_cons_iff, List.cons_prefix_cons, ih h.2]
          constructor
          · rintro (hlt | heq)
            · exact absurd (h.1 ▸ hlt) (Std.not_lt.mpr (htop k))
            · exact heq
          · exact .inr

theorem isPrefix_iff_of_next {top a b : α} (htop : ∀ x, x ≤ top) (hnext : Next a b) {tops : List α}
    (h : ∀ c ∈ tops, c = top) (front key : List α) :
    front ++ a :: tops ≤ key ∧ key < front ++ [b] ↔ front ++ a :: tops <+: key := by
  induction front generalizing key with
  | nil =>
      cases key with
      | nil => simp
      | cons k key =>
          rw [List.nil_append, List.nil_append, List.cons_le_cons_iff, List.cons_lt_cons_iff, List.cons_prefix_cons,
            isPrefix_iff_of_top htop h, hnext]
          constructor
          · rintro ⟨hlt | heq, hle | ⟨-, hnil⟩⟩
            · exact absurd hlt (Std.not_lt.mpr hle)
            · exact absurd hnil (List.not_lt_nil key)
            · exact heq
            · exact absurd hnil (List.not_lt_nil key)
          · rintro ⟨rfl, hrest⟩
            exact ⟨.inr ⟨rfl, hrest⟩, .inl (Std.le_refl _)⟩
  | cons f front ih =>
      cases key with
      | nil => simp
      | cons k key =>
          rw [List.cons_append, List.cons_append, List.cons_le_cons_iff, List.cons_lt_cons_iff, List.cons_prefix_cons,
            ← ih key]
          constructor
          · rintro ⟨hlt | ⟨rfl, hle⟩, hgt | ⟨heq, hupper⟩⟩
            · exact absurd hgt (Std.not_lt.mpr (Std.le_of_lt hlt))
            · exact absurd (heq ▸ hlt) (Std.not_lt.mpr (Std.le_refl _))
            · exact absurd hgt (Std.not_lt.mpr (Std.le_refl _))
            · exact ⟨rfl, hle, hupper⟩
          · rintro ⟨rfl, hle, hupper⟩
            exact ⟨.inr ⟨rfl, hle⟩, .inr ⟨rfl, hupper⟩⟩

end Interval

/-! ## The order by comparison -/

variable {α : Type} [Ord α] [LT α] [LE α] [Std.LawfulOrderOrd α] [Std.LawfulOrderLT α] [Std.LawfulEqOrd α]

/-- Comparing words letter by letter decides their order. -/
theorem compare_eq_lt {xs ys : List α} : compare xs ys = .lt ↔ xs < ys := by
  induction xs generalizing ys with
  | nil =>
      cases ys with
      | nil => simp [compare, List.compareLex]
      | cons y ys => simp [compare, List.compareLex]
  | cons x xs ih =>
      cases ys with
      | nil => simp [compare, List.compareLex]
      | cons y ys =>
          show List.compareLex compare (x :: xs) (y :: ys) = .lt ↔ _
          rw [List.compareLex_cons_cons, Ordering.then_eq_lt, List.cons_lt_cons_iff, Std.compare_eq_lt,
            Std.compare_eq_iff_eq]
          exact or_congr_right (and_congr_right fun _ => ih)

end Lexicographic
