import Arachne.Data.Schedule
import Arachne.Oracle.History

/-! # The linearizability checker

The checker looks for an order of the operations in which a key-value map gives every answer that was observed. It takes
one operation after the other: a required one has to be placed, and the map must give its result; an optional one may
be placed or skipped. An operation is only taken when all that were before it in real time are. The search goes through
all such orders, so it finds one whenever there is one (`search_of_schedule`). -/

namespace Arachne.Oracle

open Codec (Bytes)
open Schedule (Legal)
open Std (ExtTreeMap)

/-! ## The reference model -/

structure KvState where
  map : ExtTreeMap Bytes UInt64

def KvState.new : KvState := { map := ∅ }

/-- The state after the operation, and what it returns. -/
def KvState.apply (state : KvState) : Op → KvState × OpResult
  | .put key value => ({ map := state.map.insert key value }, .ok none)
  | .delete key => ({ map := state.map.erase key }, .ok none)
  | .get key => (state, .ok state.map[key]?)

inductive CheckOutcome where
  | linearizable
  | violation (witness : List UInt64)
  | inconclusive (points : Nat)
  deriving DecidableEq, Repr

/-- `MAX_CHECK_POINTS`. -/
def maxCheckPoints : Nat := 12

inductive PointKind where
  | required
  | optional
  deriving DecidableEq, Repr

def LogOp.kind (o : LogOp) : PointKind := if o.isLinearizationPoint then .required else .optional

/-! ## The real-time order -/

/-- The operation was complete when the other one began. -/
def LogOp.completesBefore (a b : LogOp) : Bool := a.completeTs.any fun ca => ca ≤ b.invokeTs

/-- For every point: the points that have to wait for it, and how many it has to wait for. -/
structure RealTime where
  successors : Nat → List Nat
  remainingPred : Nat → Nat

def RealTime.link (r : RealTime) (edge : Nat × Nat) : RealTime where
  successors := Function.update r.successors edge.1 (r.successors edge.1 ++ [edge.2])
  remainingPred := Function.update r.remainingPred edge.2 (r.remainingPred edge.2 + 1)

/-- Which of the two points has to wait for the other one, if one has. -/
def edgeOf (points : List LogOp) (a b : Nat) : Option (Nat × Nat) :=
  match points[a]?, points[b]? with
  | some p, some q =>
    if p.completesBefore q && !q.completesBefore p then some (a, b)
    else if q.completesBefore p && !p.completesBefore q then some (b, a)
    else none
  | _, _ => none

/-- The pairs of points the loops go through. -/
def pairsBelow (n : Nat) : List (Nat × Nat) :=
  (List.range n).flatMap fun a => (List.range' (a + 1) (n - (a + 1))).map fun b => (a, b)

def edges (points : List LogOp) : List (Nat × Nat) :=
  (pairsBelow points.length).filterMap fun pair => edgeOf points pair.1 pair.2

def realTime (points : List LogOp) : RealTime :=
  (edges points).foldl RealTime.link { successors := fun _ => [], remainingPred := fun _ => 0 }

/-! ## The search -/

/-- `observed_matches`. -/
def observedMatches (observed : Option OpResult) (expected : OpResult) : Bool := observed = some expected

/-- The successors of a resolved point have one point less to wait for. -/
def release (successors : List Nat) (remainingPred : Nat → Nat) : Nat → Nat :=
  successors.foldl (fun pred s => Function.update pred s (pred s - 1)) remainingPred

/-- `dfs`, with the number of points that are left. -/
def dfs (points : List LogOp) (successors : Nat → List Nat) : Nat → (Nat → Bool) → (Nat → Nat) → KvState → Bool
  | 0, _, _, _ => true
  | left + 1, resolved, remainingPred, state =>
    (List.range points.length).any fun i =>
      match points[i]? with
      | none => false
      | some point =>
        if resolved i || remainingPred i != 0 then false
        else
          let required : Bool := point.kind = .required
          let next := state.apply point.op
          let resolved := Function.update resolved i true
          let remainingPred := release (successors i) remainingPred
          -- Place the operation, or skip it.
          ((!required || observedMatches point.result next.2) && dfs points successors left resolved remainingPred next.1) ||
            (!required && dfs points successors left resolved remainingPred state)

def search (points : List LogOp) (initial : KvState) : Bool :=
  dfs points (realTime points).successors points.length (fun _ => false) (realTime points).remainingPred initial

/-- The loop of `shrink_witness`: `kept` are the points before the index, which are needed. -/
def shrink (initial : KvState) : List LogOp → List LogOp → List LogOp
  | kept, [] => kept
  | kept, point :: rest =>
    if search (kept ++ rest) initial then shrink initial (kept ++ [point]) rest else shrink initial kept rest

def shrinkWitness (points : List LogOp) (initial : KvState) : List UInt64 :=
  (shrink initial [] points).flatMap LogOp.calls

/-- The points of the search. -/
def LogOp.isPoint (o : LogOp) : Bool := o.isLinearizationPoint || o.isOptionalWritePoint

def checkReduced (ops : List LogOp) (initial : KvState) : CheckOutcome :=
  let points := ops.filter LogOp.isPoint
  if points = [] then .linearizable
  else if points.length > maxCheckPoints then .inconclusive points.length
  else if search points initial then .linearizable
  else .violation (shrinkWitness points initial)

def checkLinearizable (history : List Event) (initial : KvState) : CheckOutcome :=
  checkReduced (mergeRetries history) initial

/-! ## The search is complete -/

variable {points : List LogOp}

theorem successors_foldl (es : List (Nat × Nat)) (r : RealTime) (i : Nat) :
    (es.foldl RealTime.link r).successors i = r.successors i ++ (es.filter fun e => e.1 = i).map Prod.snd := by
  induction es generalizing r with
  | nil => exact (List.append_nil _).symm
  | cons e es ih =>
      rw [List.foldl_cons, ih]
      simp only [RealTime.link]
      by_cases h : e.1 = i
      · subst h
        rw [Function.update_self, List.filter_cons, if_pos (decide_eq_true rfl), List.append_assoc]
        rfl
      · rw [Function.update_of_ne (Ne.symm h), List.filter_cons, if_neg (by simpa using h)]

theorem remainingPred_foldl (es : List (Nat × Nat)) (r : RealTime) (j : Nat) :
    (es.foldl RealTime.link r).remainingPred j = r.remainingPred j + es.countP fun e => e.2 = j := by
  induction es generalizing r with
  | nil => rfl
  | cons e es ih =>
      rw [List.foldl_cons, ih]
      simp only [RealTime.link]
      by_cases h : e.2 = j
      · subst h
        rw [Function.update_self, List.countP_cons, if_pos (decide_eq_true rfl)]
        omega
      · rw [Function.update_of_ne (Ne.symm h), List.countP_cons, if_neg (by simpa using h)]
        rfl

theorem release_apply (successors : List Nat) (pred : Nat → Nat) (j : Nat) :
    release successors pred j = pred j - successors.count j := by
  induction successors generalizing pred with
  | nil => rfl
  | cons s successors ih =>
      show release successors (Function.update pred s (pred s - 1)) j = _
      rw [ih]
      by_cases h : s = j
      · subst h
        rw [Function.update_self, List.count_cons_self]
        omega
      · rw [Function.update_of_ne (Ne.symm h), List.count_cons_of_ne h]

/-- What the search may do with a point: place it, if the map gives its result, or skip it, if it is optional. -/
def Resolves (points : List LogOp) (i : Nat) (x y : KvState) : Prop :=
  ∃ point, points[i]? = some point ∧
    ((point.kind = .required → point.result = some (x.apply point.op).2) ∧ y = (x.apply point.op).1 ∨
      point.kind = .optional ∧ y = x)

/-- The edges that are left for `j` when `i` is resolved. -/
theorem countP_resolve {es : List (Nat × Nat)} {resolved : Nat → Bool} {i : Nat} (hi : resolved i = false) (j : Nat) :
    (es.countP fun e => e.2 = j && !Function.update resolved i true e.1) =
      (es.countP fun e => e.2 = j && !resolved e.1) - ((es.filter fun e => e.1 = i).map Prod.snd).count j := by
  induction es with
  | nil => rfl
  | cons e es ih =>
      have hle : ((es.filter fun e => e.1 = i).map Prod.snd).count j ≤ es.countP fun e => e.2 = j && !resolved e.1 := by
        rw [List.count, List.countP_map, List.countP_filter]
        refine List.countP_mono_left fun e _ he => ?_
        simp only [Function.comp_apply, Bool.and_eq_true, beq_iff_eq, decide_eq_true_eq] at he
        simp [he.1, he.2, hi]
      rw [List.countP_cons, List.countP_cons, ih, List.filter_cons]
      by_cases h : e.1 = i
      · simp only [h, hi, Function.update_self, decide_true, if_true, List.map_cons, List.count_cons]
        by_cases hj : e.2 = j
        · simp [hj]
        · simp [hj]
      · simp only [h, Function.update_of_ne h, decide_false, Bool.false_eq_true, if_false]
        omega

/-- A point that waits for nothing can be taken, if the rest of the search succeeds from there. -/
theorem dfs_of_resolves {successors : Nat → List Nat} {i left : Nat} {resolved : Nat → Bool} {remainingPred : Nat → Nat}
    {state next : KvState} (hi : resolved i = false) (hzero : remainingPred i = 0)
    (hresolves : Resolves points i state next)
    (hrest : dfs points successors left (Function.update resolved i true) (release (successors i) remainingPred) next = true) :
    dfs points successors (left + 1) resolved remainingPred state = true := by
  obtain ⟨point, hpoint, hmove⟩ := hresolves
  rw [dfs, List.any_eq_true]
  refine ⟨i, List.mem_range.mpr (List.getElem?_eq_some_iff.mp hpoint).1, ?_⟩
  simp only [hpoint, hi, hzero, bne_self_eq_false, Bool.or_self, Bool.false_eq_true, if_false]
  rw [Bool.or_eq_true, Bool.and_eq_true, Bool.and_eq_true]
  rcases hmove with ⟨hresult, rfl⟩ | ⟨hoptional, rfl⟩
  · refine .inl ⟨?_, hrest⟩
    cases hkind : point.kind with
    | optional => rfl
    | required => exact decide_eq_true (hresult hkind)
  · refine .inr ⟨?_, hrest⟩
    rw [hoptional]
    rfl

/-- **The search finds every legal order**: the first point of the order can be taken, and the rest of it is found. -/
theorem dfs_of_legal {es : List (Nat × Nat)} {successors : Nat → List Nat} {order : List Nat} {resolved : Nat → Bool}
    {remainingPred : Nat → Nat} {state : KvState}
    (hsuccessors : ∀ i, successors i = (es.filter fun e => e.1 = i).map Prod.snd) (hnodup : order.Nodup)
    (hresolved : ∀ i ∈ order, resolved i = false) (hopen : ∀ e ∈ es, resolved e.1 = false → e.1 ∈ order)
    (hloop : ∀ e ∈ es, e.1 ≠ e.2) (hsorted : order.Pairwise fun i j => (j, i) ∉ es)
    (hpred : ∀ j, remainingPred j = es.countP fun e => e.2 = j && !resolved e.1)
    (hlegal : Legal (Resolves points) order state) :
    dfs points successors order.length resolved remainingPred state = true := by
  induction order generalizing resolved remainingPred state with
  | nil => rfl
  | cons i order ih =>
      obtain ⟨next, hresolves, hrest⟩ := hlegal
      obtain ⟨hfirst, hsorted⟩ := List.pairwise_cons.mp hsorted
      obtain ⟨hi, hnodup⟩ := List.nodup_cons.mp hnodup
      have hunresolved := hresolved i List.mem_cons_self
      -- Whatever the first point has to wait for is resolved.
      have hzero : remainingPred i = 0 := by
        rw [hpred, List.countP_eq_zero]
        intro e he hcount
        obtain ⟨htarget, hsource⟩ : e.2 = i ∧ resolved e.1 = false := by simpa using hcount
        rcases List.mem_cons.mp (hopen e he hsource) with heq | hmem
        · exact hloop e he (heq.trans htarget.symm)
        · exact hfirst e.1 hmem (htarget ▸ he)
      refine dfs_of_resolves hunresolved hzero hresolves (ih hnodup ?_ ?_ hsorted ?_ hrest)
      · intro j hj
        have hne : j ≠ i := by
          rintro rfl
          exact hi hj
        rw [Function.update_of_ne hne]
        exact hresolved j (List.mem_cons_of_mem i hj)
      · intro e he hsource
        have hne : e.1 ≠ i := by
          rintro rfl
          rw [Function.update_self] at hsource
          cases hsource
        rw [Function.update_of_ne hne] at hsource
        exact (List.mem_cons.mp (hopen e he hsource)).resolve_left hne
      · intro j
        rw [release_apply, hsuccessors, hpred, countP_resolve hunresolved]

/-! ## Edges -/

theorem mem_pairsBelow {n a b : Nat} (h : (a, b) ∈ pairsBelow n) : a < b ∧ b < n := by
  obtain ⟨a', ha', hb⟩ := List.mem_flatMap.mp h
  obtain ⟨b', hb', heq⟩ := List.mem_map.mp hb
  obtain ⟨rfl, rfl⟩ := Prod.mk.inj heq
  have hlt := List.mem_range.mp ha'
  obtain ⟨hle, hlt'⟩ := List.mem_range'_1.mp hb'
  omega

/-- An edge goes from a point that was complete to one that began later. -/
theorem mem_edges {e : Nat × Nat} (h : e ∈ edges points) :
    e.1 ≠ e.2 ∧ ∃ p q, points[e.1]? = some p ∧ points[e.2]? = some q ∧ p.completesBefore q := by
  obtain ⟨⟨a, b⟩, hpair, hedge⟩ := List.mem_filterMap.mp h
  have hlt := (mem_pairsBelow hpair).1
  simp only [edgeOf] at hedge
  split at hedge
  · next p q hp hq =>
    split_ifs at hedge with hforward hbackward
    · obtain rfl := Option.some.inj hedge
      exact ⟨Nat.ne_of_lt hlt, p, q, hp, hq, (Bool.and_eq_true _ _ ▸ hforward).1⟩
    · obtain rfl := Option.some.inj hedge
      exact ⟨Nat.ne_of_gt hlt, q, p, hq, hp, (Bool.and_eq_true _ _ ▸ hbackward).1⟩
  · cases hedge

/-- The counters the search starts with. -/
theorem realTime_successors (i : Nat) :
    (realTime points).successors i = ((edges points).filter fun e => e.1 = i).map Prod.snd := by
  rw [realTime, successors_foldl]
  rfl

theorem realTime_remainingPred (j : Nat) :
    (realTime points).remainingPred j = (edges points).countP fun e => e.2 = j && !(fun _ => false : Nat → Bool) e.1 := by
  rw [realTime, remainingPred_foldl, Nat.zero_add]
  simp

/-- A legal order of all points that keeps to the edges is found. -/
theorem search_of_legal {order : List Nat} {initial : KvState} (hperm : order.Perm (List.range points.length))
    (hsorted : order.Pairwise fun i j => (j, i) ∉ edges points) (hlegal : Legal (Resolves points) order initial) :
    search points initial = true := by
  have hlength : order.length = points.length := by
    rw [hperm.length_eq, List.length_range]
  rw [search, ← hlength]
  refine dfs_of_legal realTime_successors (hperm.nodup_iff.mpr List.nodup_range) (fun _ _ => rfl) ?_
    (fun e he => (mem_edges he).1) hsorted realTime_remainingPred hlegal
  intro e he _
  obtain ⟨-, p, -, hp, -⟩ := mem_edges he
  exact hperm.mem_iff.mpr (List.mem_range.mpr (List.getElem?_eq_some_iff.mp hp).1)

/-- **A history that can be scheduled passes**: the points have times of their own, in keeping with real time, and a world
in which each of them is placed or skipped at its time. -/
theorem search_of_schedule {time : Nat → Nat} {world : Nat → KvState}
    (hdistinct : ∀ i j, i < points.length → j < points.length → time i = time j → i = j)
    (hbefore : ∀ i j p q, points[i]? = some p → points[j]? = some q → p.completesBefore q → time i < time j)
    (hmove : ∀ i < points.length, Resolves points i (world (time i)) (world (time i + 1)))
    (hidle : ∀ t, (∀ i < points.length, time i ≠ t) → world (t + 1) = world t) : search points (world 0) = true := by
  have hpairwise : (List.range points.length).Pairwise (time · ≠ time ·) := by
    refine List.nodup_range.imp_of_mem fun {i j} hi hj hne heq => hne ?_
    exact hdistinct i j (List.mem_range.mp hi) (List.mem_range.mp hj) heq
  obtain ⟨order, hperm, hsorted, hlegal⟩ := Schedule.exists_legal hpairwise
    (fun i hi => hmove i (List.mem_range.mp hi)) (fun t h => hidle t fun i hi => h i (List.mem_range.mpr hi))
  refine search_of_legal hperm (hsorted.imp fun {i j} hlt he => ?_) hlegal
  obtain ⟨-, p, q, hp, hq, hcomplete⟩ := mem_edges he
  exact Nat.lt_asymm hlt (hbefore j i p q hp hq hcomplete)

theorem checkReduced_ne_violation {ops : List LogOp} {initial : KvState}
    (h : search (ops.filter LogOp.isPoint) initial = true) (witness : List UInt64) :
    checkReduced ops initial ≠ .violation witness := by
  simp only [checkReduced, h, if_true]
  split_ifs <;> exact nofun

end Arachne.Oracle
