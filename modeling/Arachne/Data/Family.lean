import Mathlib.Data.List.Perm.Basic
import Mathlib.Logic.Function.Basic

/-! # Families of lists

Several queues, or several threads that each hold some items, are a family of lists: a list of holders with what each of
them holds, or a function on a list of keys. What the family holds together is the concatenation, in whatever order.
Replacing one member replaces its items and leaves the others alone (`flatMap_set_perm`, `flatMap_update_perm`). -/

namespace Family

universe u v w

variable {A : Type u} {K : Type v} {α : Type w}

/-- One holder of a list of them is replaced. -/
theorem flatMap_set_perm {holders : List A} {i : Nat} {a : A} (h : holders[i]? = some a) (a' : A) (f : A → List α) :
    ((holders.set i a').flatMap f ++ f a).Perm (holders.flatMap f ++ f a') := by
  induction holders generalizing i with
  | nil => cases h
  | cons b holders ih =>
      cases i with
      | zero =>
          obtain rfl := Option.some.inj h
          rw [List.set_cons_zero, List.flatMap_cons, List.flatMap_cons]
          refine (List.perm_append_comm).trans ?_
          rw [List.append_assoc]
          exact (List.perm_append_comm).append_left (f b)
      | succ i =>
          rw [List.set_cons_succ, List.flatMap_cons, List.flatMap_cons, List.append_assoc, List.append_assoc]
          exact (ih h).append_left (f b)

/-- One holder leaves. -/
theorem flatMap_eraseIdx_perm {holders : List A} {i : Nat} {a : A} (h : holders[i]? = some a) (f : A → List α) :
    ((holders.eraseIdx i).flatMap f ++ f a).Perm (holders.flatMap f) := by
  obtain ⟨hi, rfl⟩ := List.getElem?_eq_some_iff.mp h
  refine List.perm_append_comm.trans ?_
  exact (List.getElem_cons_eraseIdx_perm hi).flatMap_right f

variable [DecidableEq K]

theorem flatMap_update_of_notMem {keys : List K} {k : K} (hk : k ∉ keys) (q : K → List α) (l : List α) :
    keys.flatMap (Function.update q k l) = keys.flatMap q := by
  refine List.flatMap_congr fun x hx => ?_
  rw [Function.update_of_ne]
  rintro rfl
  exact hk hx

/-- The list under one key is replaced. -/
theorem flatMap_update_perm {keys : List K} {k : K} (hnodup : keys.Nodup) (hk : k ∈ keys) (q : K → List α) (l : List α) :
    (keys.flatMap (Function.update q k l) ++ q k).Perm (keys.flatMap q ++ l) := by
  induction keys with
  | nil => cases hk
  | cons key keys ih =>
      obtain ⟨hkey, hnodup⟩ := List.nodup_cons.mp hnodup
      rw [List.flatMap_cons, List.flatMap_cons]
      by_cases heq : k = key
      · subst heq
        rw [Function.update_self, flatMap_update_of_notMem hkey]
        refine (List.perm_append_comm).trans ?_
        rw [List.append_assoc]
        exact (List.perm_append_comm).append_left (q k)
      · rw [Function.update_of_ne (Ne.symm heq), List.append_assoc, List.append_assoc]
        exact (ih hnodup ((List.mem_cons.mp hk).resolve_left heq)).append_left (q key)

end Family
