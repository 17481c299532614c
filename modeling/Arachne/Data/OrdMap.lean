import Mathlib.Data.List.Nodup

/-! # Ordered maps

`Std.ExtTreeMap` is an ordered map with extensional equality. Over keys whose order is lawful, a lookup
after an update depends on the equality of the keys only; the lemmas below say so, for one update and
for a list of them. `foldl_insert_toList` is the step from a listing of a map back to the map: inserting
what it lists gives the map. -/

namespace OrdMap

open Std (ExtTreeMap)

variable {α β : Type} [Ord α] [Std.TransOrd α] [Std.LawfulEqOrd α] [DecidableEq α]

theorem getElem?_insert (m : ExtTreeMap α β) (k : α) (v : β) (a : α) :
    (m.insert k v)[a]? = if a = k then some v else m[a]? := by
  rw [ExtTreeMap.getElem?_insert]
  by_cases h : a = k
  · subst h
    rw [if_pos Std.ReflCmp.compare_self, if_pos rfl]
  · rw [if_neg fun heq => h (Std.LawfulEqCmp.eq_of_compare heq).symm, if_neg h]

theorem getElem?_erase (m : ExtTreeMap α β) (k a : α) : (m.erase k)[a]? = if a = k then none else m[a]? := by
  rw [ExtTreeMap.getElem?_erase]
  by_cases h : a = k
  · subst h
    rw [if_pos Std.ReflCmp.compare_self, if_pos rfl]
  · rw [if_neg fun heq => h (Std.LawfulEqCmp.eq_of_compare heq).symm, if_neg h]

theorem getElem?_foldl_erase (m : ExtTreeMap α β) (ks : List α) (a : α) :
    (ks.foldl (·.erase ·) m)[a]? = if a ∈ ks then none else m[a]? := by
  induction ks generalizing m with
  | nil => simp
  | cons k ks ih =>
      rw [List.foldl_cons, ih, getElem?_erase]
      by_cases h : a = k
      · simp [h]
      · simp [h]

/-- A property of every binding, under one update. -/
theorem forall_insert {P : α → β → Prop} {m : ExtTreeMap α β} (h : ∀ k v, m[k]? = some v → P k v) {k : α} {v : β}
    (hv : P k v) : ∀ a b, (m.insert k v)[a]? = some b → P a b := by
  intro a b hb
  rw [getElem?_insert] at hb
  split at hb
  · next heq =>
      obtain rfl := Option.some.inj hb
      exact heq ▸ hv
  · exact h a b hb

theorem forall_erase {P : α → β → Prop} {m : ExtTreeMap α β} (h : ∀ k v, m[k]? = some v → P k v) (k : α) :
    ∀ a b, (m.erase k)[a]? = some b → P a b := by
  intro a b hb
  rw [getElem?_erase, Option.ite_none_left_eq_some] at hb
  exact h a b hb.2

/-- … and under a list of insertions. -/
theorem forall_foldl_insert {P : α × β → Prop} {xs : List (α × β)} (hxs : ∀ x ∈ xs, P x) {m : ExtTreeMap α β}
    (h : ∀ k v, m[k]? = some v → P (k, v)) :
    ∀ x ∈ (xs.foldl (fun m x => m.insert x.1 x.2) m).toList, P x := by
  induction xs generalizing m with
  | nil => exact fun x hx => h x.1 x.2 (ExtTreeMap.mem_toList_iff_getElem?_eq_some.mp hx)
  | cons x xs ih =>
      rw [List.forall_mem_cons] at hxs
      exact ih hxs.2 (forall_insert (P := fun k v => P (k, v)) h hxs.1)

/-- Inserting a list of bindings with distinct keys adds the bindings and hides the old ones of their
keys. -/
theorem getElem?_foldl_insert {xs : List (α × β)} (hdistinct : (xs.map Prod.fst).Nodup) (m : ExtTreeMap α β) (a : α)
    (b : β) :
    (xs.foldl (fun m x => m.insert x.1 x.2) m)[a]? = some b ↔
      (a, b) ∈ xs ∨ a ∉ xs.map Prod.fst ∧ m[a]? = some b := by
  induction xs generalizing m with
  | nil => simp
  | cons x xs ih =>
      obtain ⟨k, v⟩ := x
      rw [List.map_cons, List.nodup_cons] at hdistinct
      rw [List.foldl_cons, ih hdistinct.2, getElem?_insert]
      by_cases h : a = k
      · subst h
        have hkey : a ∉ xs.map Prod.fst := hdistinct.1
        have hnot : (a, b) ∉ xs := fun hmem => hkey (List.mem_map.mpr ⟨(a, b), hmem, rfl⟩)
        simp [hnot, hkey, eq_comm]
      · simp [h]

omit [Std.LawfulEqOrd α] [DecidableEq α] in
theorem nodup_fst_toList (m : ExtTreeMap α β) : (m.toList.map Prod.fst).Nodup := by
  rw [ExtTreeMap.map_fst_toList_eq_keys]
  exact ExtTreeMap.nodup_keys

/-- **A map is what it lists.** -/
theorem foldl_insert_toList (m : ExtTreeMap α β) : m.toList.foldl (fun m x => m.insert x.1 x.2) ∅ = m := by
  refine ExtTreeMap.ext_getElem? fun a => Option.ext fun b => ?_
  rw [getElem?_foldl_insert (nodup_fst_toList m), ExtTreeMap.mem_toList_iff_getElem?_eq_some]
  simp

/-! ## Ascending listings -/

omit [Std.LawfulEqOrd α] [DecidableEq α] in
theorem size_foldl_insert_le (xs : List (α × β)) (m : ExtTreeMap α β) :
    (xs.foldl (fun m x => m.insert x.1 x.2) m).size ≤ m.size + xs.length := by
  induction xs generalizing m with
  | nil => exact Nat.le_refl _
  | cons x xs ih =>
      have hinsert := @ExtTreeMap.size_insert_le _ _ _ m _ x.1 x.2
      have hrest := ih (m.insert x.1 x.2)
      rw [List.foldl_cons, List.length_cons]
      omega

/-- The keys ascend strictly. -/
def Ascending (xs : List (α × β)) : Prop := xs.Pairwise fun x y => compare x.1 y.1 = .lt

omit [Std.TransOrd α] [Std.LawfulEqOrd α] [DecidableEq α] in
instance (xs : List (α × β)) : Decidable (Ascending xs) :=
  inferInstanceAs (Decidable (xs.Pairwise fun x y => compare x.1 y.1 = .lt))

omit [Std.LawfulEqOrd α] [DecidableEq α] in
theorem ascending_toList (m : ExtTreeMap α β) : Ascending m.toList := ExtTreeMap.ordered_keys_toList

omit [Std.LawfulEqOrd α] [DecidableEq α] in
theorem Ascending.nodup_fst {xs : List (α × β)} (h : Ascending xs) : (xs.map Prod.fst).Nodup := by
  rw [List.Nodup, List.pairwise_map]
  refine h.imp fun {x y} hlt heq => ?_
  have hself : compare y.1 y.1 = .eq := Std.ReflCmp.compare_self
  rw [heq, hself] at hlt
  cases hlt

/-- **An ascending listing is what the map it makes lists.** -/
theorem Ascending.toList_foldl_insert {xs : List (α × β)} (h : Ascending xs) :
    (xs.foldl (fun m x => m.insert x.1 x.2) (∅ : ExtTreeMap α β)).toList = xs := by
  have hasc := ascending_toList (xs.foldl (fun m x => m.insert x.1 x.2) (∅ : ExtTreeMap α β))
  refine List.Perm.eq_of_pairwise ?_ hasc h ?_
  · intro x y _ _ hxy hyx
    have hswap : compare x.1 y.1 = (compare y.1 x.1).swap := Std.OrientedCmp.eq_swap
    rw [hswap, hyx] at hxy
    cases hxy
  · refine (List.perm_ext_iff_of_nodup (List.Nodup.of_map _ hasc.nodup_fst) (List.Nodup.of_map _ h.nodup_fst)).mpr ?_
    rintro ⟨k, v⟩
    rw [ExtTreeMap.mem_toList_iff_getElem?_eq_some, getElem?_foldl_insert h.nodup_fst]
    simp

end OrdMap
