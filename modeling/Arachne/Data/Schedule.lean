import Mathlib.Data.List.Induction
import Mathlib.Data.List.Sort

/-! # Schedules

A world passes through states `world 0`, `world 1`, …, and each of some items moves it at a time of its own; at all other
times it rests. Then the items, taken in the order of their times, make a legal execution of their moves
(`exists_legal`): the world can be replayed without its clock. -/

namespace Schedule

universe u v

variable {ι : Type u} {σ : Type v} {moves : ι → σ → σ → Prop} {time : ι → Nat} {world : Nat → σ}

/-- The items can be executed one after the other from `x`. -/
def Legal (moves : ι → σ → σ → Prop) : List ι → σ → Prop
  | [], _ => True
  | i :: rest, x => ∃ y, moves i x y ∧ Legal moves rest y

/-- Nothing happens before the first item. -/
theorem world_eq_of_idle {t t' : Nat} (h : ∀ q, t ≤ q → q < t' → world (q + 1) = world q) (hle : t ≤ t') :
    world t' = world t := by
  induction t', hle using Nat.le_induction with
  | base => rfl
  | succ q hq ih =>
      rw [h q hq (Nat.lt_succ_self q)]
      exact ih fun q' hq' hlt => h q' hq' (Nat.lt_succ_of_lt hlt)

theorem legal_of_sorted {order : List ι} (hsorted : order.Pairwise (time · < time ·)) {t : Nat}
    (hlow : ∀ i ∈ order, t ≤ time i) (hmove : ∀ i ∈ order, moves i (world (time i)) (world (time i + 1)))
    (hidle : ∀ q, t ≤ q → (∀ i ∈ order, time i ≠ q) → world (q + 1) = world q) : Legal moves order (world t) := by
  induction order generalizing t with
  | nil => trivial
  | cons i rest ih =>
      obtain ⟨hfirst, hrest⟩ := List.pairwise_cons.mp hsorted
      have hworld : world (time i) = world t := by
        refine world_eq_of_idle (fun q hq hlt => hidle q hq fun j hj => ?_) (hlow i List.mem_cons_self)
        rcases List.mem_cons.mp hj with rfl | hj
        · exact Nat.ne_of_gt hlt
        · exact Nat.ne_of_gt (Nat.lt_trans hlt (hfirst j hj))
      refine ⟨world (time i + 1), hworld ▸ hmove i List.mem_cons_self, ih hrest hfirst ?_ ?_⟩
      · exact fun j hj => hmove j (List.mem_cons_of_mem i hj)
      · intro q hq hnone
        refine hidle q (Nat.le_trans (hlow i List.mem_cons_self) (Nat.le_of_succ_le hq)) fun j hj => ?_
        rcases List.mem_cons.mp hj with rfl | hj
        · exact Nat.ne_of_lt hq
        · exact hnone j hj

/-- **Every world can be replayed**, in the order of the times. -/
theorem exists_legal {items : List ι} (hdistinct : items.Pairwise (time · ≠ time ·))
    (hmove : ∀ i ∈ items, moves i (world (time i)) (world (time i + 1)))
    (hidle : ∀ q, (∀ i ∈ items, time i ≠ q) → world (q + 1) = world q) :
    ∃ order, order.Perm items ∧ order.Pairwise (time · < time ·) ∧ Legal moves order (world 0) := by
  let le : ι → ι → Bool := fun i j => decide (time i ≤ time j)
  have htrans : ∀ i j k, le i j → le j k → le i k := fun i j k hij hjk =>
    decide_eq_true (Nat.le_trans (of_decide_eq_true hij) (of_decide_eq_true hjk))
  have htotal : ∀ i j, le i j || le j i := by
    intro i j
    rw [Bool.or_eq_true]
    exact (Nat.le_total (time i) (time j)).imp decide_eq_true decide_eq_true
  have hperm := List.mergeSort_perm items le
  have hle := List.pairwise_mergeSort htrans htotal items
  have hne := hperm.symm.pairwise hdistinct fun h => h.symm
  have hsorted := (hle.and hne).imp fun h => Nat.lt_of_le_of_ne (of_decide_eq_true h.1) h.2
  refine ⟨_, hperm, hsorted, legal_of_sorted hsorted (fun _ _ => Nat.zero_le _) ?_ ?_⟩
  · exact fun i hi => hmove i (hperm.mem_iff.mp hi)
  · exact fun q _ hnone => hidle q fun i hi => hnone i (hperm.mem_iff.mpr hi)

/-! ## Extending an execution

An execution that keeps to a strict order can take in further items, if each of them may also do nothing. -/

/-- Where an item fits into a list that keeps to a strict order: behind all that come before it, and before all that come
after it. -/
theorem exists_split {R : ι → ι → Prop} (hirrefl : ∀ i, ¬ R i i) (htrans : ∀ i j k, R i j → R j k → R i k) {order : List ι}
    (hsorted : order.Pairwise fun i j => ¬ R j i) (x : ι) :
    ∃ front rest, order = front ++ rest ∧ (∀ i ∈ front, ¬ R x i) ∧ ∀ i ∈ rest, ¬ R i x := by
  induction order using List.reverseRecOn with
  | nil => exact ⟨[], [], rfl, fun _ hi => absurd hi List.not_mem_nil, fun _ hi => absurd hi List.not_mem_nil⟩
  | append_singleton order last ih =>
      obtain ⟨hinit, -, hlast⟩ := List.pairwise_append.mp hsorted
      by_cases hx : R last x
      · refine ⟨order ++ [last], [], (List.append_nil _).symm, ?_, fun _ hi => absurd hi List.not_mem_nil⟩
        intro i hi hxi
        rcases List.mem_append.mp hi with hi | hi
        · exact hlast i hi last (List.mem_singleton_self last) (htrans _ _ _ hx hxi)
        · obtain rfl := List.mem_singleton.mp hi
          exact hirrefl i (htrans _ _ _ hx hxi)
      · obtain ⟨front, rest, rfl, hfront, hrest⟩ := ih hinit
        refine ⟨front, rest ++ [last], List.append_assoc _ _ _, hfront, ?_⟩
        intro i hi
        rcases List.mem_append.mp hi with hi | hi
        · exact hrest i hi
        · exact List.mem_singleton.mp hi ▸ hx

theorem legal_insert {front rest : List ι} {x : ι} (hidle : ∀ s, moves x s s) {s : σ} (h : Legal moves (front ++ rest) s) :
    Legal moves (front ++ x :: rest) s := by
  induction front generalizing s with
  | nil => exact ⟨s, hidle s, h⟩
  | cons i front ih =>
      obtain ⟨t, hmove, hlegal⟩ := h
      exact ⟨t, hmove, ih hlegal⟩

/-- **Every execution extends** to one that takes in the items it left out. -/
theorem exists_extension {R : ι → ι → Prop} (hirrefl : ∀ i, ¬ R i i) (htrans : ∀ i j k, R i j → R j k → R i k)
    {order extra : List ι} (hidle : ∀ i ∈ extra, ∀ s, moves i s s) (hsorted : order.Pairwise fun i j => ¬ R j i) {s : σ}
    (hlegal : Legal moves order s) :
    ∃ all, all.Perm (extra ++ order) ∧ all.Pairwise (fun i j => ¬ R j i) ∧ Legal moves all s := by
  induction extra with
  | nil => exact ⟨order, .refl _, hsorted, hlegal⟩
  | cons x extra ih =>
      rw [List.forall_mem_cons] at hidle
      obtain ⟨all, hperm, hall, hlegal⟩ := ih hidle.2
      obtain ⟨front, rest, rfl, hfront, hrest⟩ := exists_split hirrefl htrans hall x
      refine ⟨front ++ x :: rest, List.perm_middle.trans (hperm.cons x), ?_, legal_insert hidle.1 hlegal⟩
      obtain ⟨hpairFront, hpairRest, hacross⟩ := List.pairwise_append.mp hall
      refine List.pairwise_append.mpr ⟨hpairFront, List.pairwise_cons.mpr ⟨hrest, hpairRest⟩, ?_⟩
      intro i hi j hj
      rcases List.mem_cons.mp hj with rfl | hj
      · exact hfront i hi
      · exact hacross i hi j hj

end Schedule
