import Mathlib.Data.Finset.Sort
import Mathlib.Data.List.Sort

/-! # Quorums

Votes and acknowledgements count when a majority of the voters has given them, and in a joint configuration a majority of
both halves. An empty half asks for nothing. The two counting functions of raft answer by what a quorum has done
(`JointConfig.counting_exact`). -/

namespace Arachne.Raft

def majority (total : Nat) : Nat := total / 2 + 1

/-- `u64::MAX`. -/
def maxIndex : Nat := 2 ^ 64 - 1

/-- What a voter has acknowledged, and its commit group (0 is none). -/
structure Index where
  index : Nat := 0
  groupId : Nat := 0

inductive VoteResult where
  | pending
  | lost
  | won

/-- The voters. They are iterated in the order of their ids. -/
abbrev MajorityConfig := Finset Nat

namespace MajorityConfig

variable (c : MajorityConfig)

/-- The acknowledgements of the voters, the greatest first. -/
def matched (acked : Nat → Option Index) : List Index :=
  ((c.sort (· ≤ ·)).map fun v => (acked v).getD {}).insertionSort fun a b => b.index ≤ a.index

/-- The loop over commit groups: it ends at the first voter of a second group. -/
def groupLoop (quorumCommitIndex lastIndex : Nat) : List Index → (checkedGroupId : Nat) → (singleGroup : Bool) → Nat × Bool
  | [], _, singleGroup => (if singleGroup then quorumCommitIndex else lastIndex, false)
  | m :: rest, checkedGroupId, singleGroup =>
    if m.groupId = 0 then groupLoop quorumCommitIndex lastIndex rest checkedGroupId false
    else if checkedGroupId = 0 then groupLoop quorumCommitIndex lastIndex rest m.groupId singleGroup
    else if checkedGroupId = m.groupId then groupLoop quorumCommitIndex lastIndex rest checkedGroupId singleGroup
    else (min m.index quorumCommitIndex, true)

def committedIndex (useGroupCommit : Bool) (acked : Nat → Option Index) : Nat × Bool :=
  if c = ∅ then (maxIndex, true)
  else
    let matched := c.matched acked
    let quorumIndex := matched.getD (majority matched.length - 1) {}
    if useGroupCommit then
      groupLoop quorumIndex.index (matched.getLast?.getD {}).index matched quorumIndex.groupId true
    else (quorumIndex.index, false)

def voteResult (check : Nat → Option Bool) : VoteResult :=
  if c = ∅ then .won
  else
    let yes := (c.filter fun v => check v = some true).card
    let missing := (c.filter fun v => check v = none).card
    let q := majority c.card
    if yes ≥ q then .won else if yes + missing ≥ q then .pending else .lost

end MajorityConfig

structure JointConfig where
  incoming : MajorityConfig := ∅
  outgoing : MajorityConfig := ∅

namespace JointConfig

variable (c : JointConfig)

def committedIndex (useGroupCommit : Bool) (acked : Nat → Option Index) : Nat × Bool :=
  let i := c.incoming.committedIndex useGroupCommit acked
  let o := c.outgoing.committedIndex useGroupCommit acked
  (min i.1 o.1, i.2 && o.2)

def voteResult (check : Nat → Option Bool) : VoteResult :=
  match c.incoming.voteResult check, c.outgoing.voteResult check with
  | .won, .won => .won
  | .lost, _ => .lost
  | _, .lost => .lost
  | _, _ => .pending

end JointConfig

/-! ## What a quorum is -/

/-- The index a voter has acknowledged. -/
def ackedIndex (acked : Nat → Option Index) (v : Nat) : Nat := ((acked v).getD {}).index

/-- A majority of the voters, if there are any, satisfies `p`. -/
def MajorityConfig.Majority (c : MajorityConfig) (p : Nat → Prop) [DecidablePred p] : Prop :=
  c = ∅ ∨ majority c.card ≤ (c.filter p).card

def JointConfig.Quorum (c : JointConfig) (p : Nat → Prop) [DecidablePred p] : Prop :=
  c.incoming.Majority p ∧ c.outgoing.Majority p

/-! ## Counting -/

/-- In a descending list, the element at a position is at least `k` if and only if more than so many are. -/
theorem le_getD_iff_countP {m : List Index} {k i : Nat} (h : m.Pairwise fun a b => b.index ≤ a.index)
    (hi : i < m.length) : k ≤ (m.getD i {}).index ↔ i < m.countP fun x => k ≤ x.index := by
  induction m generalizing i with
  | nil => exact absurd hi (Nat.not_lt_zero i)
  | cons a m ih =>
      obtain ⟨ha, hm⟩ := List.pairwise_cons.mp h
      -- behind an element that is too small all are
      have hzero (hlt : a.index < k) : m.countP (fun x => k ≤ x.index) = 0 := by
        rw [List.countP_eq_zero]
        intro b hb
        have := ha b hb
        simp only [decide_eq_true_eq]
        omega
      rw [List.countP_cons]
      cases i with
      | zero =>
          rcases Nat.lt_or_ge a.index k with hlt | hge
          · simp [hzero hlt, Nat.not_le.mpr hlt]
          · simp [hge]
      | succ i =>
          rw [List.getD_cons_succ, ih hm (Nat.lt_of_succ_lt_succ hi)]
          rcases Nat.lt_or_ge a.index k with hlt | hge
          · simp [hzero hlt, Nat.not_le.mpr hlt]
          · simp [hge]

namespace MajorityConfig

variable {c : MajorityConfig} {acked : Nat → Option Index} {k : Nat}

theorem countP_matched (c : MajorityConfig) (acked : Nat → Option Index) (k : Nat) :
    ((c.matched acked).countP fun x => k ≤ x.index) = (c.filter fun v => k ≤ ackedIndex acked v).card := by
  rw [matched, (List.perm_insertionSort _ _).countP_eq, List.countP_map, Finset.card_def,
    Finset.filter_val, ← Multiset.countP_eq_card_filter, ← Finset.sort_eq c (· ≤ ·), Multiset.coe_countP]
  rfl

theorem length_matched (c : MajorityConfig) (acked : Nat → Option Index) : (c.matched acked).length = c.card := by
  rw [matched, List.length_insertionSort, List.length_map, Finset.length_sort]

theorem pairwise_matched (c : MajorityConfig) (acked : Nat → Option Index) :
    (c.matched acked).Pairwise fun a b => b.index ≤ a.index := by
  have : Std.Total fun a b : Index => b.index ≤ a.index := ⟨fun a b => Nat.le_total b.index a.index⟩
  have : IsTrans Index fun a b => b.index ≤ a.index := ⟨fun _ _ _ hab hbc => hbc.trans hab⟩
  exact List.pairwise_insertionSort _ _

/-- The index in the middle is the greatest one that a majority has acknowledged. -/
theorem le_quorumIndex_iff (hne : c ≠ ∅) :
    k ≤ ((c.matched acked).getD (majority (c.matched acked).length - 1) {}).index ↔
      majority c.card ≤ (c.filter fun v => k ≤ ackedIndex acked v).card := by
  have hpos := Finset.card_pos.mpr (Finset.nonempty_iff_ne_empty.mpr hne)
  rw [le_getD_iff_countP (pairwise_matched c acked) (by rw [length_matched, majority]; omega), countP_matched,
    length_matched, majority]
  omega

theorem groupLoop_le {quorumCommitIndex lastIndex : Nat} (hlast : lastIndex ≤ quorumCommitIndex) (ms : List Index)
    (checkedGroupId : Nat) (singleGroup : Bool) :
    (groupLoop quorumCommitIndex lastIndex ms checkedGroupId singleGroup).1 ≤ quorumCommitIndex := by
  induction ms generalizing checkedGroupId singleGroup with
  | nil =>
      cases singleGroup with
      | true => exact Nat.le_refl _
      | false => exact hlast
  | cons m ms ih =>
      rw [groupLoop]
      split_ifs
      · exact ih _ _
      · exact ih _ _
      · exact ih _ _
      · exact Nat.min_le_right _ _

/-- What every voter has acknowledged, a majority has. -/
theorem last_le_quorumIndex (hne : c ≠ ∅) : ((c.matched acked).getLast?.getD {}).index ≤
    ((c.matched acked).getD (majority (c.matched acked).length - 1) {}).index := by
  have hpos := Finset.card_pos.mpr (Finset.nonempty_iff_ne_empty.mpr hne)
  have hsorted := pairwise_matched c acked
  rw [← length_matched c acked] at hpos
  rw [List.getLast?_eq_getElem?, ← List.getD_eq_getElem?_getD, le_getD_iff_countP hsorted (by rw [majority]; omega)]
  have hlast := (le_getD_iff_countP hsorted (Nat.sub_one_lt_of_lt hpos)).mp (Nat.le_refl _)
  exact hlast.trans_le' (by rw [majority]; omega)

/-- Commit groups only hold the index back. -/
theorem majority_of_le_committedIndex {useGroupCommit : Bool} (h : k ≤ (c.committedIndex useGroupCommit acked).1) :
    c.Majority fun v => k ≤ ackedIndex acked v := by
  by_cases hne : c = ∅
  · exact .inl hne
  · refine .inr ((le_quorumIndex_iff hne).mp (h.trans ?_))
    simp only [committedIndex, if_neg hne]
    split_ifs
    · exact groupLoop_le (last_le_quorumIndex hne) _ _ _
    · exact Nat.le_refl _

theorem le_committedIndex_iff (hk : k ≤ maxIndex) :
    k ≤ (c.committedIndex false acked).1 ↔ c.Majority fun v => k ≤ ackedIndex acked v := by
  refine ⟨majority_of_le_committedIndex, fun hmaj => ?_⟩
  by_cases hne : c = ∅
  · rwa [committedIndex, if_pos hne]
  · rw [committedIndex, if_neg hne]
    exact (le_quorumIndex_iff hne).mpr (hmaj.resolve_left hne)

/-- Who has not voted no has voted yes or not at all. -/
theorem card_not_no (c : MajorityConfig) (check : Nat → Option Bool) :
    (c.filter fun v => check v = some true).card + (c.filter fun v => check v = none).card =
      (c.filter fun v => check v ≠ some false).card := by
  rw [← Finset.card_union_of_disjoint, ← Finset.filter_or]
  · congr 1
    refine Finset.filter_congr fun v _ => ?_
    rcases check v with _ | _ | _ <;> simp
  · exact Finset.disjoint_filter.mpr fun v _ hyes hnone => by simp [hyes] at hnone

theorem voteResult_iff (c : MajorityConfig) (check : Nat → Option Bool) :
    (c.voteResult check = .won ↔ c.Majority fun v => check v = some true) ∧
      (c.voteResult check = .lost ↔ ¬c.Majority fun v => check v ≠ some false) := by
  simp only [voteResult, Majority, ← card_not_no]
  split_ifs with hempty hwon hpending
  · simp [hempty]
  · simp [hempty, hwon, hwon.le.trans (Nat.le_add_right _ _)]
  · simp [hempty, hwon, hpending]
  · simp [hempty, hwon, hpending]

end MajorityConfig

/-- **Counting is exact.** In every configuration, joint or not, and for every state of the acknowledgements and votes: an
index can be committed exactly if a quorum has acknowledged it, and commit groups never let through more than that; an
election is won exactly if a quorum has voted yes, and lost exactly if no quorum can do so any more. -/
theorem JointConfig.counting_exact (c : JointConfig) (acked : Nat → Option Index) (check : Nat → Option Bool) :
    (∀ k ≤ maxIndex, k ≤ (c.committedIndex false acked).1 ↔ c.Quorum fun v => k ≤ ackedIndex acked v) ∧
      (∀ k, k ≤ (c.committedIndex true acked).1 → c.Quorum fun v => k ≤ ackedIndex acked v) ∧
      (c.voteResult check = .won ↔ c.Quorum fun v => check v = some true) ∧
      (c.voteResult check = .lost ↔ ¬c.Quorum fun v => check v ≠ some false) := by
  refine ⟨fun k hk => ?_, fun k h => ?_, ?_⟩
  · rw [Quorum, ← MajorityConfig.le_committedIndex_iff hk, ← MajorityConfig.le_committedIndex_iff hk]
    exact Nat.le_min
  · exact ⟨MajorityConfig.majority_of_le_committedIndex (h.trans (Nat.min_le_left _ _)),
      MajorityConfig.majority_of_le_committedIndex (h.trans (Nat.min_le_right _ _))⟩
  · obtain ⟨hwon, hlost⟩ := c.incoming.voteResult_iff check
    obtain ⟨hwon', hlost'⟩ := c.outgoing.voteResult_iff check
    rw [Quorum, Quorum, not_and_or, ← hwon, ← hwon', ← hlost, ← hlost', voteResult]
    cases c.incoming.voteResult check <;> cases c.outgoing.voteResult check <;> simp

end Arachne.Raft
