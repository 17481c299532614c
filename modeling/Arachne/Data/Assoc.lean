import Mathlib.Data.List.Basic

/-! # Association lists in key order

A finite map from natural numbers, kept as its list of bindings in ascending key order: the shape of a
directory of numbered files, listed by number. The order is a field, so two maps with the same
bindings are equal and the last binding is the one with the highest key.

Every operation is described by what it does to the list of bindings. Values can be reinterpreted
(`map`), and reinterpretation commutes with each operation (`map_modify`, `map_erase`,
`map_insertNew`): a map of encoded values stays in step with the map of the values it encodes. -/

universe u v

/-- A finite map with natural-number keys, as its bindings in ascending key order. -/
@[ext] structure Assoc (β : Type u) where
  toList : List (Nat × β)
  ascending : (toList.map Prod.fst).Pairwise (· < ·)
  deriving DecidableEq, Repr

namespace Assoc

variable {β : Type u} {γ : Type v}

def empty : Assoc β := ⟨[], .nil⟩

/-- The keys, ascending. -/
def keys (m : Assoc β) : List Nat := m.toList.map Prod.fst

def get? (m : Assoc β) (k : Nat) : Option β := (m.toList.find? (·.1 == k)).map Prod.snd

/-! ## Operations -/

/-- Apply `f` to the value at `k`, if there is one. -/
def modify (m : Assoc β) (k : Nat) (f : β → β) : Assoc β where
  toList := m.toList.map fun p => if p.1 = k then (p.1, f p.2) else p
  ascending := by
    have h : ((m.toList.map fun p => if p.1 = k then (p.1, f p.2) else p).map Prod.fst) =
        m.toList.map Prod.fst := by
      rw [List.map_map]
      refine List.map_congr_left fun p _ => ?_
      by_cases hp : p.1 = k <;> simp [hp]
    rw [h]
    exact m.ascending

/-- Remove the binding of `k`. -/
def erase (m : Assoc β) (k : Nat) : Assoc β where
  toList := m.toList.filter fun p => p.1 ≠ k
  ascending := m.ascending.sublist (List.filter_sublist.map Prod.fst)

/-- Bind `k` to `v` in a list of bindings, unless it is bound there already. -/
def insertList (k : Nat) (v : β) : List (Nat × β) → List (Nat × β)
  | [] => [(k, v)]
  | p :: l =>
    if k < p.1 then (k, v) :: p :: l
    else if k = p.1 then p :: l
    else p :: insertList k v l

theorem mem_keys_insertList {k : Nat} {v : β} {l : List (Nat × β)} {x : Nat}
    (h : x ∈ (insertList k v l).map Prod.fst) : x = k ∨ x ∈ l.map Prod.fst := by
  induction l with
  | nil => simpa [insertList] using h
  | cons p l ih =>
      simp only [insertList] at h
      split at h
      · simpa using h
      · split at h
        · exact .inr h
        · simp only [List.map_cons, List.mem_cons] at h ⊢
          rcases h with h | h
          · exact .inr (.inl h)
          · rcases ih h with h | h
            · exact .inl h
            · exact .inr (.inr h)

theorem ascending_insertList {k : Nat} {v : β} {l : List (Nat × β)}
    (h : (l.map Prod.fst).Pairwise (· < ·)) :
    ((insertList k v l).map Prod.fst).Pairwise (· < ·) := by
  induction l with
  | nil => simp [insertList]
  | cons p l ih =>
      rw [List.map_cons, List.pairwise_cons] at h
      simp only [insertList]
      split
      · next hlt =>
          rw [List.map_cons, List.map_cons, List.pairwise_cons, List.pairwise_cons]
          refine ⟨fun x hx => ?_, h⟩
          rcases List.mem_cons.mp hx with rfl | hx
          · exact hlt
          · exact Nat.lt_trans hlt (h.1 x hx)
      · split
        · rw [List.map_cons, List.pairwise_cons]; exact h
        · next hlt hne =>
            rw [List.map_cons, List.pairwise_cons]
            refine ⟨fun x hx => ?_, ih h.2⟩
            rcases mem_keys_insertList hx with rfl | hx
            · show p.1 < x
              omega
            · exact h.1 x hx

/-- Bind `k` to `v` unless `k` is bound already. -/
def insertNew (m : Assoc β) (k : Nat) (v : β) : Assoc β where
  toList := insertList k v m.toList
  ascending := ascending_insertList m.ascending

/-- Reinterpret every value. -/
def map (m : Assoc β) (f : β → γ) : Assoc γ where
  toList := m.toList.map fun p => (p.1, f p.2)
  ascending := by rw [List.map_map]; exact m.ascending

/-- Remove the bindings of all keys in `ks`. -/
def eraseAll (m : Assoc β) (ks : List Nat) : Assoc β := ks.foldl erase m

/-! ## Reinterpretation commutes with the operations -/

@[simp] theorem toList_map (m : Assoc β) (f : β → γ) :
    (m.map f).toList = m.toList.map fun p => (p.1, f p.2) := rfl

@[simp] theorem keys_map (m : Assoc β) (f : β → γ) : (m.map f).keys = m.keys := by
  rw [keys, toList_map, List.map_map]; rfl

theorem map_map {δ : Type v} (m : Assoc β) (f : β → γ) (g : γ → δ) : (m.map f).map g = m.map fun v => g (f v) := by
  ext1
  rw [toList_map, toList_map, toList_map, List.map_map]
  rfl

@[simp] theorem keys_modify (m : Assoc β) (k : Nat) (f : β → β) : (m.modify k f).keys = m.keys := by
  rw [keys, keys, modify, List.map_map]
  refine List.map_congr_left fun p _ => ?_
  by_cases hp : p.1 = k <;> simp [hp]

theorem map_modify (m : Assoc β) (k : Nat) {f : β → β} {g : β → γ} {f' : γ → γ}
    (h : ∀ v, g (f v) = f' (g v)) : (m.modify k f).map g = (m.map g).modify k f' := by
  ext1
  simp only [modify, map, List.map_map]
  refine List.map_congr_left fun p _ => ?_
  by_cases hp : p.1 = k <;> simp [hp, h]

/-- A change that reinterpretation does not see. -/
theorem map_modify_eq (m : Assoc β) (k : Nat) {f : β → β} {g : β → γ} (h : ∀ v, g (f v) = g v) :
    (m.modify k f).map g = m.map g := by
  ext1
  simp only [modify, map, List.map_map]
  refine List.map_congr_left fun p _ => ?_
  by_cases hp : p.1 = k <;> simp [hp, h]

theorem modify_modify (m : Assoc β) (k : Nat) (f g : β → β) :
    (m.modify k f).modify k g = m.modify k fun v => g (f v) := by
  ext1
  simp only [modify, List.map_map]
  refine List.map_congr_left fun p _ => ?_
  by_cases hp : p.1 = k <;> simp [hp]

theorem map_erase (m : Assoc β) (k : Nat) (g : β → γ) : (m.erase k).map g = (m.map g).erase k := by
  ext1
  simp only [erase, map, List.filter_map]
  rfl

theorem map_eraseAll (m : Assoc β) (ks : List Nat) (g : β → γ) :
    (m.eraseAll ks).map g = (m.map g).eraseAll ks := by
  induction ks generalizing m with
  | nil => rfl
  | cons k ks ih =>
      show ((m.erase k).eraseAll ks).map g = ((m.map g).erase k).eraseAll ks
      rw [ih, map_erase]

theorem map_insertNew (m : Assoc β) (k : Nat) (v : β) (g : β → γ) :
    (m.insertNew k v).map g = (m.map g).insertNew k (g v) := by
  ext1
  simp only [insertNew, map]
  induction m.toList with
  | nil => rfl
  | cons p l ih => simp only [insertList, List.map_cons]; split_ifs <;> simp [ih]

/-! ## The bindings after an operation -/

theorem lt_of_toList_eq {m : Assoc β} {pre post : List (Nat × β)} {k : Nat} {v : β}
    (h : m.toList = pre ++ (k, v) :: post) :
    (∀ p ∈ pre, p.1 < k) ∧ ∀ p ∈ post, k < p.1 := by
  have hasc := m.ascending
  rw [h, List.map_append, List.map_cons, List.pairwise_append, List.pairwise_cons] at hasc
  refine ⟨fun p hp => ?_, fun p hp => ?_⟩
  · exact hasc.2.2 p.1 (List.mem_map_of_mem hp) k List.mem_cons_self
  · exact hasc.2.1.1 p.1 (List.mem_map_of_mem hp)

/-- The last key is the largest. -/
theorem le_of_mem_keys {m : Assoc β} {pre : List (Nat × β)} {k x : Nat} {v : β} (h : m.toList = pre ++ [(k, v)])
    (hx : x ∈ m.keys) : x ≤ k := by
  obtain ⟨p, hp, rfl⟩ := List.mem_map.mp hx
  rw [h, List.mem_append, List.mem_singleton] at hp
  rcases hp with hp | rfl
  · exact Nat.le_of_lt ((lt_of_toList_eq h).1 p hp)
  · exact Nat.le_refl _

theorem get?_of_toList_eq {m : Assoc β} {pre post : List (Nat × β)} {k : Nat} {v : β}
    (h : m.toList = pre ++ (k, v) :: post) : m.get? k = some v := by
  have hpre : pre.find? (·.1 == k) = none := by
    rw [List.find?_eq_none]
    intro p hp
    simpa using Nat.ne_of_lt ((lt_of_toList_eq h).1 p hp)
  rw [get?, h, List.find?_append, hpre, Option.none_or, List.find?_cons_of_pos (by simp)]
  rfl

/-- The place of a binding. -/
theorem get?_of_mem {m : Assoc β} {p : Nat × β} (h : p ∈ m.toList) : m.get? p.1 = some p.2 := by
  obtain ⟨pre, post, heq⟩ := List.append_of_mem h
  exact get?_of_toList_eq heq

theorem toList_eq_of_get? {m : Assoc β} {k : Nat} {v : β} (h : m.get? k = some v) :
    ∃ pre post, m.toList = pre ++ (k, v) :: post := by
  obtain ⟨⟨k', v'⟩, hfind, rfl⟩ := Option.map_eq_some_iff.mp h
  obtain rfl : k' = k := by simpa using List.find?_some hfind
  exact List.append_of_mem (List.mem_of_find?_eq_some hfind)

theorem toList_modify_of_eq {m : Assoc β} {pre post : List (Nat × β)} {k : Nat} {v : β}
    (f : β → β) (h : m.toList = pre ++ (k, v) :: post) :
    (m.modify k f).toList = pre ++ (k, f v) :: post := by
  obtain ⟨hpre, hpost⟩ := lt_of_toList_eq h
  have hid : ∀ l : List (Nat × β), (∀ p ∈ l, p.1 ≠ k) →
      (l.map fun p => if p.1 = k then (p.1, f p.2) else p) = l := fun l hl => by
    rw [List.map_congr_left (fun p hp => if_neg (hl p hp)), List.map_id']
  show (m.toList.map fun p => if p.1 = k then (p.1, f p.2) else p) = _
  rw [h, List.map_append, List.map_cons, hid pre fun p hp => Nat.ne_of_lt (hpre p hp),
    hid post fun p hp => Nat.ne_of_gt (hpost p hp), if_pos rfl]

theorem toList_insertNew_of_lt {m : Assoc β} {k : Nat} (v : β) (h : ∀ x ∈ m.keys, x < k) :
    (m.insertNew k v).toList = m.toList ++ [(k, v)] := by
  show insertList k v m.toList = _
  rw [keys] at h
  generalize m.toList = l at h
  induction l with
  | nil => rfl
  | cons p l ih =>
      rw [List.map_cons, List.forall_mem_cons] at h
      rw [insertList, if_neg (by omega), if_neg (by omega), ih h.2]
      rfl

theorem insertNew_of_mem {m : Assoc β} {k : Nat} (v : β) (h : k ∈ m.keys) :
    m.insertNew k v = m := by
  ext1
  show insertList k v m.toList = m.toList
  have hasc := m.ascending
  rw [keys] at h
  generalize m.toList = l at h hasc
  induction l with
  | nil => simp at h
  | cons p l ih =>
      rw [List.map_cons, List.pairwise_cons] at hasc
      rw [List.map_cons, List.mem_cons] at h
      rw [insertList]
      rcases h with rfl | h
      · simp
      · have hlt := hasc.1 k h
        rw [if_neg (by omega), if_neg (by omega), ih h hasc.2]

theorem toList_eraseAll (m : Assoc β) (ks : List Nat) :
    (m.eraseAll ks).toList = m.toList.filter fun p => p.1 ∉ ks := by
  induction ks generalizing m with
  | nil => simp [eraseAll]
  | cons k ks ih =>
      show ((m.erase k).eraseAll ks).toList = _
      rw [ih, erase, List.filter_filter]
      refine List.filter_congr fun p _ => ?_
      simp [Bool.and_comm]

theorem eraseAll_keys (m : Assoc β) : m.eraseAll m.keys = empty := by
  ext1
  rw [toList_eraseAll]
  refine List.filter_eq_nil_iff.mpr fun p hp => ?_
  have hmem : p.1 ∈ m.keys := List.mem_map_of_mem hp
  simp [hmem]

theorem mem_insertNew {m : Assoc β} {k : Nat} {v : β} {p : Nat × β} (h : p ∈ (m.insertNew k v).toList) :
    p = (k, v) ∨ p ∈ m.toList := by
  rw [insertNew] at h
  dsimp only at h
  generalize m.toList = l at h ⊢
  induction l with
  | nil => exact .inl (List.mem_singleton.mp h)
  | cons q l ih =>
      rw [insertList] at h
      split_ifs at h
      · exact List.mem_cons.mp h
      · exact .inr h
      · rcases List.mem_cons.mp h with rfl | h
        · exact .inr List.mem_cons_self
        · exact (ih h).imp_right (List.mem_cons_of_mem q)

/-- Removing every key above `k` keeps the bindings up to and including `k`. -/
theorem toList_eraseAll_gt {m : Assoc β} {pre post : List (Nat × β)} {k : Nat} {v : β}
    (h : m.toList = pre ++ (k, v) :: post) :
    (m.eraseAll (m.keys.filter (k < ·))).toList = pre ++ [(k, v)] := by
  obtain ⟨hpre, hpost⟩ := lt_of_toList_eq h
  have hkeep : (pre.filter fun p => p.1 ∉ m.keys.filter (k < ·)) = pre := by
    refine List.filter_eq_self.mpr fun p hp => ?_
    have := hpre p hp
    simp only [List.mem_filter, decide_eq_true_eq]
    omega
  have hdrop : (post.filter fun p => p.1 ∉ m.keys.filter (k < ·)) = [] := by
    refine List.filter_eq_nil_iff.mpr fun p hp => ?_
    have hmem : p.1 ∈ m.keys := by
      rw [keys, h]; exact List.mem_map_of_mem (by simp [hp])
    simp [hmem, hpost p hp]
  rw [toList_eraseAll, h, List.filter_append, hkeep, List.filter_cons, if_pos (by simp), hdrop]

/-- Removing the keys of a leading segment of the bindings drops that segment. -/
theorem toList_eraseAll_prefix {m : Assoc β} {pre post : List (Nat × β)}
    (h : m.toList = pre ++ post) : (m.eraseAll (pre.map Prod.fst)).toList = post := by
  have hasc := m.ascending
  rw [h, List.map_append, List.pairwise_append] at hasc
  have hdrop : (pre.filter fun p => p.1 ∉ pre.map Prod.fst) = [] := by
    refine List.filter_eq_nil_iff.mpr fun p hp => ?_
    simpa using List.mem_map_of_mem (f := Prod.fst) hp
  have hkeep : (post.filter fun p => p.1 ∉ pre.map Prod.fst) = post := by
    refine List.filter_eq_self.mpr fun p hp => ?_
    rw [decide_eq_true_eq]
    intro hmem
    exact absurd (hasc.2.2 p.1 hmem p.1 (List.mem_map_of_mem hp)) (Nat.lt_irrefl _)
  rw [toList_eraseAll, h, List.filter_append, hdrop, hkeep, List.nil_append]

end Assoc
